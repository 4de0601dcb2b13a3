import MatrixScript.Proofs.Symbol.Defaults
import MatrixScript.Proofs.Symbol.Ranges

/-! How an editor reads the snippet of a call.

Main statement: it finds the parameters of the signature, one place for each, unless the text of a default value
has a meaning of its own in a snippet. -/
namespace MatrixScript

namespace Snippet

/-- A place where the cursor stops. -/
inductive Stop where
  | placeholder (number : Nat) (text : String)
  /-- One without a text, or inside a placeholder. -/
  | other
deriving DecidableEq

/-- How far the editor is. -/
inductive Mode where
  | outside
  /-- Behind a backslash. -/
  | quoted
  /-- Behind a dollar sign. -/
  | sign
  /-- Behind a dollar sign and an opening brace. -/
  | brace
  | number (value : Nat)
  | inside (number : Nat) (text : List Char)
  /-- Behind a backslash in a placeholder. -/
  | escaped (number : Nat) (text : List Char)

/-- The characters that a backslash deprives of their meaning in a placeholder. -/
def isMark (c : Char) : Bool := c == '$' || c == '}' || c == '\\'

/-- Reads one character. A placeholder goes on to the next brace without a backslash before it; another stop may
start in it. -/
def step : Mode → Char → Mode × Option Stop
  | .outside, c => (if c = '$' then .sign else if c = '\\' then .quoted else .outside, none)
  | .quoted, _ => (.outside, none)
  | .sign, c => if c = '{' then (.brace, none) else (.outside, some .other)
  | .brace, c => if c.isDigit then (.number (c.toNat - '0'.toNat), none) else (.outside, some .other)
  | .number n, c =>
    if c.isDigit then (.number (10 * n + (c.toNat - '0'.toNat)), none)
    else if c = ':' then (.inside n [], none)
    else (.outside, some .other)
  | .inside n text, c =>
    if c = '$' then (.inside n text, some .other)
    else if c = '}' then (.outside, some (.placeholder n (String.ofList text)))
    else if c = '\\' then (.escaped n text, none)
    else (.inside n (text ++ [c]), none)
  | .escaped n text, c => (.inside n (text ++ if isMark c then [c] else ['\\', c]), none)

def readFrom : Mode → List Char → List Stop
  | _, [] => []
  | mode, c :: cs => (step mode c).2.toList ++ readFrom (step mode c).1 cs

/-- The places where the cursor stops in a snippet. -/
def read (snippet : String) : List Stop := readFrom .outside snippet.toList

/-- One placeholder for each text. -/
def placeholders (texts : List String) : List Stop :=
  texts.zipIdx.map fun (text, i) => .placeholder (i + 1) text

/-- No character of the text has a meaning in a placeholder. -/
inductive Plain : List Char → Prop where
  | nil : Plain []
  | char {c : Char} {cs : List Char} (hc : isMark c = false) (h : Plain cs) : Plain (c :: cs)
  | backslash {c : Char} {cs : List Char} (hc : isMark c = false) (h : Plain cs) : Plain ('\\' :: c :: cs)

variable {n k : Nat} {text cs rest : List Char} {stops : List Stop}

theorem isMark_eq_false {c : Char} : isMark c = false ↔ c ≠ '$' ∧ c ≠ '}' ∧ c ≠ '\\' := by
  simp [isMark, and_assoc]

theorem mark_cases (c : Char) : c = '$' ∨ c = '}' ∨ c = '\\' ∨ isMark c = false := by
  rw [isMark_eq_false]
  tauto

theorem plain_cons {c : Char} (hc : isMark c = false) : Plain (c :: cs) ↔ Plain cs := by
  refine ⟨fun h => ?_, .char hc⟩
  cases h with
  | char _ hcs => exact hcs
  | backslash => contradiction

theorem plain_append (h : ∀ c ∈ text, isMark c = false) : Plain (text ++ cs) ↔ Plain cs := by
  induction text with
  | nil => exact Iff.rfl
  | cons c text ih =>
    obtain ⟨hc, htext⟩ := List.forall_mem_cons.mp h
    rw [List.cons_append, plain_cons hc, ih htext]

theorem replicate_append_cons (k : Nat) (c : Char) (cs : List Char) :
    List.replicate k c ++ c :: cs = c :: (List.replicate k c ++ cs) := by
  rw [← List.cons_append, ← List.replicate_succ, List.replicate_succ', List.append_assoc, List.singleton_append]

theorem readFrom_outside (h : ∀ c ∈ cs, isMark c = false) :
    readFrom .outside (cs ++ rest) = readFrom .outside rest := by
  induction cs with
  | nil => rfl
  | cons c cs ih =>
    obtain ⟨hc, hcs⟩ := List.forall_mem_cons.mp h
    obtain ⟨hsign, -, hbackslash⟩ := isMark_eq_false.mp hc
    rw [List.cons_append, readFrom, step, if_neg hsign, if_neg hbackslash]
    exact ih hcs

theorem readFrom_number (h : ∀ c ∈ cs, c.isDigit = true) :
    readFrom (.number n) (cs ++ ':' :: rest) = readFrom (.inside (Nat.ofDigitChars 10 cs n) []) rest := by
  induction cs generalizing n with
  | nil => rfl
  | cons c cs ih =>
    obtain ⟨hc, hcs⟩ := List.forall_mem_cons.mp h
    rw [List.cons_append, readFrom, step, if_pos hc, Nat.ofDigitChars_cons]
    exact ih hcs

/-- The editor finds the start of a placeholder and its number. -/
theorem readFrom_tabStop (n : Nat) (text : String) :
    readFrom .outside ((Definition.tabStop n text).toList ++ rest) =
      readFrom (.inside n []) (text.toList ++ '}' :: rest) := by
  have hdigits : ∀ c ∈ Nat.toDigits 10 n, c.isDigit = true :=
    fun _ => Nat.isDigit_of_mem_toDigits (by decide) (by decide)
  have hnumber : Nat.ofDigitChars 10 (Nat.toDigits 10 n) 0 = n := Nat.ofDigitChars_ten_toDigits
  obtain ⟨c, cs, hcs⟩ := List.exists_cons_of_ne_nil (Nat.toDigits_ne_nil (n := n) (b := 10))
  have hstop : (Definition.tabStop n text).toList ++ rest =
      '$' :: '{' :: c :: (cs ++ ':' :: (text.toList ++ '}' :: rest)) := by
    rw [Definition.tabStop, Nat.toString_eq_ofList_toDigits, hcs]
    simp
  rw [hcs] at hdigits hnumber
  rw [Nat.ofDigitChars_cons, Nat.mul_zero, Nat.zero_add] at hnumber
  obtain ⟨hc, hdigits⟩ := List.forall_mem_cons.mp hdigits
  rw [hstop]
  change readFrom .brace _ = _
  rw [readFrom, step, if_pos hc]
  change readFrom (.number _) _ = _
  rw [readFrom_number hdigits, hnumber]

theorem readFrom_inside_char {c : Char} (hc : isMark c = false) :
    readFrom (.inside n text) (c :: cs) = readFrom (.inside n (text ++ [c])) cs := by
  obtain ⟨hsign, hbrace, hbackslash⟩ := isMark_eq_false.mp hc
  rw [readFrom, step, if_neg hsign, if_neg hbrace, if_neg hbackslash]
  rfl

theorem readFrom_inside_brace : readFrom (.inside n text) ('}' :: cs) =
    .placeholder n (String.ofList text) :: readFrom .outside cs := rfl

theorem readFrom_inside_backslash : readFrom (.inside n text) ('\\' :: cs) = readFrom (.escaped n text) cs := rfl

theorem readFrom_escaped (c : Char) : readFrom (.escaped n text) (c :: cs) =
    readFrom (.inside n (text ++ if isMark c then [c] else ['\\', c])) cs := rfl

theorem Plain.readFrom_inside (h : Plain cs) : readFrom (.inside n text) (cs ++ '}' :: rest) =
    .placeholder n (String.ofList (text ++ cs)) :: readFrom .outside rest := by
  induction h generalizing text with
  | nil => rw [List.nil_append, readFrom_inside_brace, List.append_nil]
  | char hc _ ih =>
    rw [List.cons_append, readFrom_inside_char hc, ih, List.append_assoc, List.singleton_append]
  | backslash hc _ ih =>
    rw [List.cons_append, List.cons_append, readFrom_inside_backslash, readFrom_escaped, hc,
      if_neg Bool.false_ne_true, ih, List.append_assoc]
    rfl

/-- What was read of a placeholder stays at the start of its text. -/
theorem prefix_of_readFrom {found : List Char} {m : Nat} {mode : Mode}
    (hmode : mode = .inside n text ∨ mode = .escaped n text)
    (h : readFrom mode cs = .placeholder m (String.ofList found) :: stops) : text <+: found := by
  induction cs generalizing mode text with
  | nil => contradiction
  | cons c cs ih =>
    obtain rfl | rfl := hmode
    · obtain rfl | rfl | rfl | hc := mark_cases c
      · cases h
      · rw [readFrom_inside_brace] at h
        injection h with hstop
        injection hstop with _ hfound
        exact String.ofList_injective hfound ▸ List.prefix_refl _
      · exact ih (.inr rfl) h
      · rw [readFrom_inside_char hc] at h
        exact (List.prefix_append _ _).trans (ih (.inl rfl) h)
    · exact (List.prefix_append _ _).trans (ih (.inl rfl) h)

theorem head_of_readFrom {found more : List Char} {c d : Char}
    (h : readFrom (.inside n (text ++ c :: cs)) rest = .placeholder n (String.ofList found) :: stops)
    (hfound : found = text ++ d :: more) : c = d ∧ cs <+: more := by
  have hprefix := prefix_of_readFrom (.inl rfl) h
  rwa [hfound, List.prefix_append_right_inj, List.cons_prefix_cons] at hprefix

theorem text_of_readFrom_brace {found : List Char} (h : readFrom (.inside n text) ('}' :: cs) =
      .placeholder n (String.ofList found) :: stops) : found = text := by
  rw [readFrom_inside_brace] at h
  injection h with hstop
  injection hstop with _ htext
  exact (String.ofList_injective htext).symm

/-- A text that is found as it stands is plain. Where a backslash was passed over, only the next one could stand
in for it, and so on to the end of the text, where none is left. -/
theorem plain_of_readFrom {found : List Char} (h : readFrom (.inside n text) (cs ++ '}' :: rest) =
      .placeholder n (String.ofList found) :: stops) (hfound : found = text ++ (List.replicate k '\\' ++ cs)) :
    k = 0 ∧ Plain cs := by
  induction hlength : cs.length using Nat.strong_induction_on generalizing cs text k with
  | _ length ih =>
    cases cs with
    | nil =>
      rw [text_of_readFrom_brace h] at hfound
      exact ⟨by simpa using hfound, .nil⟩
    | cons c cs =>
      rw [List.length_cons] at hlength
      obtain rfl | rfl | rfl | hc := mark_cases c
      · cases h
      · rw [text_of_readFrom_brace h] at hfound
        simp at hfound
      · rw [replicate_append_cons] at hfound
        rw [List.cons_append, readFrom_inside_backslash] at h
        cases cs with
        | nil =>
          obtain ⟨hbrace, -⟩ := head_of_readFrom h hfound
          contradiction
        | cons c cs =>
          rw [List.length_cons] at hlength
          rw [List.cons_append, readFrom_escaped] at h
          split_ifs at h with hc
          · obtain ⟨rfl, -⟩ := head_of_readFrom h hfound
            have hnone := ih cs.length (by omega) (k := k + 1) h (by
              rw [hfound, replicate_append_cons, List.append_assoc, List.replicate_succ]
              rfl) rfl
            exact absurd hnone.1 (Nat.succ_ne_zero k)
          · have hc : isMark c = false := by simpa using hc
            obtain ⟨-, hprefix⟩ := head_of_readFrom h hfound
            cases k with
            | zero =>
              have hplain := ih cs.length (by omega) (k := 0) h (by simpa using hfound) rfl
              exact ⟨rfl, .backslash hc hplain.2⟩
            | succ k =>
              obtain ⟨rfl, -⟩ := List.cons_prefix_cons.mp hprefix
              contradiction
      · rw [List.cons_append, readFrom_inside_char hc] at h
        cases k with
        | zero =>
          have hplain := ih cs.length (by omega) (k := 0) h (by simpa using hfound) rfl
          exact ⟨rfl, .char hc hplain.2⟩
        | succ k =>
          obtain ⟨rfl, -⟩ := head_of_readFrom h hfound
          contradiction

/-- The editor finds a text as it stands just if it is plain. -/
theorem readFrom_tabStop_eq_iff (n : Nat) (text : String) :
    readFrom .outside ((Definition.tabStop n text).toList ++ rest) = .placeholder n text :: stops ↔
      Plain text.toList ∧ readFrom .outside rest = stops := by
  rw [readFrom_tabStop]
  constructor
  · intro h
    have htext : readFrom (.inside n []) (text.toList ++ '}' :: rest) =
        .placeholder n (String.ofList text.toList) :: stops := by rwa [String.ofList_toList]
    have hplain := (plain_of_readFrom (k := 0) htext rfl).2
    rw [hplain.readFrom_inside] at h
    exact ⟨hplain, (List.cons.inj h).2⟩
  · rintro ⟨hplain, hrest⟩
    rw [hplain.readFrom_inside, hrest]
    simp

theorem readFrom_tabStops (texts : List String) (n : Nat) :
    readFrom .outside ((", ".intercalate ((texts.zipIdx n).map fun (text, i) =>
        Definition.tabStop (i + 1) text)).toList ++ [')']) =
      (texts.zipIdx n).map (fun (text, i) => .placeholder (i + 1) text) ↔ ∀ text ∈ texts, Plain text.toList := by
  induction texts generalizing n with
  | nil => simp [readFrom, step]
  | cons text texts ih =>
    rw [List.zipIdx_cons, List.map_cons, List.map_cons, List.forall_mem_cons, ← ih (n + 1)]
    cases texts with
    | nil =>
      rw [List.zipIdx_nil, List.map_nil, String.intercalate_singleton]
      exact readFrom_tabStop_eq_iff _ _
    | cons next texts =>
      rw [List.zipIdx_cons, List.map_cons, List.map_cons, String.intercalate_cons_cons, String.toList_append,
        String.toList_append, List.append_assoc, List.append_assoc, readFrom_tabStop_eq_iff,
        readFrom_outside (by simp [isMark])]

/-- No character of a name has a meaning in a snippet. -/
theorem not_isMark_of_isWord (h : Lexeme.IsWord cs) : ∀ c ∈ cs, isMark c = false := by
  have hmark {c : Char} (hc : Lexeme.isNameChar c = true) : isMark c = false := by
    rw [isMark_eq_false]
    refine ⟨?_, ?_, ?_⟩ <;> rintro rfl <;> exact absurd hc (by decide)
  obtain ⟨hstart, hcs⟩ := h
  refine List.forall_mem_cons.mpr ⟨hmark ?_, fun c hc => hmark (hcs c hc)⟩
  rw [Lexeme.isNameStart, Bool.or_eq_true] at hstart
  simp only [Lexeme.isNameChar, Char.isAlphanum, Bool.or_eq_true]
  exact hstart.imp_left .inl

end Snippet

namespace Definition

/-- The parameters that the signature of a function shows. -/
def parameters (f : Definition) (defaults : Defaults) : List String := f.arguments.map (parameterText defaults)

theorem signature_eq (f : Definition) (defaults : Defaults) :
    f.signature defaults = f.name ++ "(" ++ ", ".intercalate (f.parameters defaults) ++ ")" := rfl

theorem plain_parameterText {name : String} (h : Lexeme.IsWord name.toList) (defaults : Defaults) :
    Snippet.Plain (parameterText defaults name).toList ↔
      ∀ value ∈ defaults.get? name, Snippet.Plain value.toList := by
  have hname := Snippet.not_isMark_of_isWord h
  unfold parameterText
  cases defaults.get? name with
  | none =>
    have hplain := (Snippet.plain_append hname).mpr .nil
    rw [List.append_nil] at hplain
    simpa using hplain
  | some value =>
    rw [String.toList_append, String.toList_append, List.append_assoc, Snippet.plain_append hname,
      Snippet.plain_append (by simp [Snippet.isMark])]
    simp

theorem read_snippet {f : Definition} (hname : Lexeme.IsWord f.name.toList) (defaults : Defaults) :
    Snippet.read (f.snippet defaults) = Snippet.placeholders (f.parameters defaults) ↔
      ∀ name ∈ f.arguments, Snippet.Plain (parameterText defaults name).toList := by
  have hstops : (f.arguments.zipIdx.map fun (name, i) => tabStop (i + 1) (parameterText defaults name)) =
      (f.parameters defaults).zipIdx.map fun (text, i) => tabStop (i + 1) text := by
    rw [parameters, List.zipIdx_map, List.map_map]
    rfl
  rw [Snippet.read, snippet, hstops, String.toList_append, String.toList_append, String.toList_append,
    List.append_assoc, List.append_assoc, Snippet.readFrom_outside (Snippet.not_isMark_of_isWord hname),
    Snippet.readFrom_outside (by simp [Snippet.isMark])]
  exact (Snippet.readFrom_tabStops _ 0).trans List.forall_mem_map

end Definition

theorem Node.Placed.namedBy {code : Code} {n : Node} (h : n.Placed code) {v : Variable} (hv : v ∈ n.sites) :
    NamedBy code.all v.name := by
  have hstands {v : Variable} (h : v.StandsIn code.all) : NamedBy code.all v.name := by
    obtain ⟨t, ht, hnames, -⟩ := h
    exact ⟨t, ht, hnames⟩
  cases n with
  | expr e =>
    cases e with
    | name use =>
      obtain rfl := List.mem_singleton.mp hv
      obtain ⟨⟨t, ht, hstarts⟩, -⟩ := h
      exact ⟨t, ht, hstarts.names⟩
    | anonymous params body span =>
      obtain ⟨param, hparam, rfl⟩ := List.mem_map.mp hv
      exact h param hparam
    | handle function span =>
      obtain rfl := List.mem_singleton.mp hv
      exact hstands h
    | named value =>
      obtain rfl := List.mem_singleton.mp hv
      exact hstands h
    | _ => contradiction
  | stmt s => exact hstands (h.1 v hv)
  | _ => contradiction

namespace Snapshot

/-- Definitions have names that were written in the text, and so have their arguments. -/
theorem isWord_names (limit : Int) (uri text : String) (version : Int) :
    ∀ d ∈ (analyze limit uri text version).definitions, Lexeme.IsWord d.name.toList ∧
      ∀ name ∈ d.arguments, Lexeme.IsWord name.toList := by
  unfold analyze
  split
  next => exact List.forall_mem_nil _
  next tokens htokens =>
    have hreads := ((tokenize_eq_ok_iff limit text tokens).mp htokens).1
    have hword {name : String} (h : NameSited (parse tokens).program.nodes name) :
        Lexeme.IsWord name.toList := by
      obtain ⟨n, hn, span, hsite⟩ := h
      obtain ⟨t, ht, hnames⟩ := (hreads.nodes_placed n hn).namedBy hsite
      have htext : t.text = name := hnames.text_eq
      rw [← htext]
      exact ((hreads.wellSpelled t (Code.all_subset hreads t ht)).isWord hnames.isName).1
    intro d hd
    obtain ⟨n, hn, hsite⟩ := (parse tokens).program.symbols_within.2 d hd
    exact ⟨hword ⟨n, hn, d.span, hsite⟩,
      fun name hname => hword ((parse tokens).program.symbols_gathered.arguments d hd name hname)⟩

/-- The snippets of functions as an editor reads them. -/
structure SnippetsRead (s : Snapshot) : Prop where
  signature : ∀ f ∈ s.definitions, f.signature (f.defaults s.definitions) =
    f.name ++ "(" ++ ", ".intercalate (f.parameters (f.defaults s.definitions)) ++ ")"
  /-- There is one place for each parameter of the signature, and no other one, unless a default value has
  characters with a meaning in a placeholder. -/
  stops : ∀ f ∈ s.definitions,
    (Snippet.read (f.snippet (f.defaults s.definitions)) =
        Snippet.placeholders (f.parameters (f.defaults s.definitions)) ↔
      ∀ name ∈ f.arguments, ∀ value ∈ (f.defaults s.definitions).get? name, Snippet.Plain value.toList)

/-- Default values are put into snippets without escaping them. -/
theorem snippets_read (limit : Int) (uri text : String) (version : Int) :
    (analyze limit uri text version).SnippetsRead where
  signature f _ := f.signature_eq _
  stops f hf := by
    obtain ⟨hname, harguments⟩ := isWord_names limit uri text version f hf
    refine (Definition.read_snippet hname _).trans ?_
    exact forall₂_congr fun name hmem => Definition.plain_parameterText (harguments name hmem) _

/-- A function whose default value is a cell. -/
def cellDefault : String := "function f(a = \x7b1\x7d)\nend"

/-- The brace of the cell ends the placeholder. -/
theorem cellDefault_ends_placeholder :
    ∃ f ∈ (analyze 100 "" cellDefault 0).definitions, f.kind = .function ∧
      f.parameters (f.defaults (analyze 100 "" cellDefault 0).definitions) = ["a = \x7b1\x7d"] ∧
      Snippet.read (f.snippet (f.defaults (analyze 100 "" cellDefault 0).definitions)) =
        [.placeholder 1 "a = \x7b1"] := by
  decide +kernel

end Snapshot

end MatrixScript
