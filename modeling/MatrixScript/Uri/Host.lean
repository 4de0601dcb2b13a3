import MatrixScript.Text.Field

/-! Hosts in the names of documents.

A host in brackets is an address of eight groups of hexadecimal digits or of a later version.
Without brackets nearly all is allowed, but for characters that look like the marks around a host. -/
namespace MatrixScript.Uri

def hexValue? (c : Char) : Option Nat :=
  if c.isDigit then some (c.toNat - '0'.toNat)
  else if 'a' ≤ c.toLower && c.toLower ≤ 'f' then some (c.toLower.toNat - 'a'.toNat + 10)
  else none

def isHexDigit (c : Char) : Bool := (hexValue? c).isSome

namespace Host

/-- A number below 256 in decimal digits, with no zero before them. -/
def isOctet (cs : List Char) : Bool :=
  !cs.isEmpty && cs.length ≤ 3 && cs.all Char.isDigit && (cs.head? != some '0' || cs.length == 1) &&
    cs.foldl (fun n c => 10 * n + (c.toNat - '0'.toNat)) 0 < 256

/-- Four numbers with points between them. -/
def isDottedAddress (cs : List Char) : Bool :=
  let octets := Text.fields '.' cs
  octets.length == 4 && octets.all isOctet

def isGroup (cs : List Char) : Bool :=
  !cs.isEmpty && cs.length ≤ 4 && cs.all isHexDigit

/-- The groups of an address. At its end a dotted address may stand for two of them. -/
def groups? (cs : List Char) : Option (List (List Char)) :=
  let groups := Text.fields ':' cs
  match groups.getLast? with
  | none => none
  | some last =>
    if !last.contains '.' then some groups
    else if isDottedAddress last then some (groups.dropLast ++ [['0'], ['0']])
    else none

/-- How many groups are written on one side of a gap. -/
def sideLength? (groups : List (List Char)) : Option Nat :=
  if groups == [[]] then some 0
  else if groups.all isGroup then some groups.length
  else none

/-- The places of empty groups other than the first and the last one. -/
def gaps (groups : List (List Char)) : List Nat :=
  (List.range (groups.length - 1)).filter fun k => k != 0 && groups[k]? == some []

/-- Eight groups, some of which may be left out at one place. -/
def isGroupAddress (cs : List Char) : Bool :=
  match groups? cs with
  | none => false
  | some groups =>
    match gaps groups with
    | [] => groups.length == 8 && groups.all isGroup
    | [k] =>
      match sideLength? (groups.take k), sideLength? (groups.drop (k + 1)) with
      | some before, some behind => before + behind < 8
      | _, _ => false
    | _ => false

/-- An address of eight groups, perhaps with the name of a zone behind a percent sign. -/
def isZonedAddress (cs : List Char) : Bool :=
  match Text.fields '%' cs with
  | [address] => isGroupAddress address
  | [address, zone] => isGroupAddress address && !zone.isEmpty
  | _ => false

/-- An address of a later version: its number in hexadecimal digits, a point, and something more. -/
def isFutureAddress : List Char → Bool
  | 'v' :: cs =>
    match cs.span isHexDigit with
    | (_ :: _, '.' :: _ :: _) => true
    | _ => false
  | _ => false

/-- What follows the name of a user and an at sign. -/
def withoutUser (host : List Char) : List Char :=
  (host.reverse.takeWhile (· != '@')).reverse

/-- The address of a host with brackets. They stand around all of it, and only a port may follow
them; where they belong to the name of the user, the address ends before the port. -/
def address? (host : List Char) : Option (List Char) :=
  match withoutUser host with
  | '[' :: rest =>
    match rest.span (· != ']') with
    | (address, []) | (address, [_]) | (address, _ :: ':' :: _) => some address
    | _ => none
  | rest => if rest.contains '[' then none else some (rest.takeWhile (· != ':'))

/-- Characters that are written forms of a slash, a colon, a question mark, a number sign or an at
sign. -/
def lookalikes : List Char :=
  ['⁇', '⁈', '⁉', '℀', '℁', '℅', '℆', '⩴', '︓', '︖', '﹕', '﹖', '﹟', '﹫', '＃', '／', '：', '？', '＠']

/-- Brackets come in pairs and hold an address. -/
def isWellFormed (host : List Char) : Bool :=
  let opens := host.contains '['
  opens == host.contains ']' &&
    (!opens || (address? host).any fun a => isFutureAddress a || isZonedAddress a) &&
    !host.any lookalikes.contains

end Host

end MatrixScript.Uri
