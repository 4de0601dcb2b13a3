import MatrixScript.Server
import Mathlib.Algebra.GroupWithZero.Nat
import Mathlib.Tactic.Common

/-! How a payload changes the settings: each of them is set to the last value that suits it, and a delay that is
no double refuses the whole payload. -/
namespace MatrixScript

namespace Number

/-- An even number is reached by rounding from half below it on. -/
theorem le_roundDiv_iff (num : Nat) {den k : Nat} (hden : 0 < den) (hk : k % 2 = 0) :
    k ≤ roundDiv num den ↔ 2 * (k * den) ≤ 2 * num + den := by
  have hdivision := Nat.div_add_mod' num den
  have hrest := Nat.mod_lt num hden
  have hle (j : Nat) : k ≤ j ↔ k * den ≤ j * den := (Nat.mul_le_mul_right_iff hden).symm
  have hge (j : Nat) : j ≤ k ↔ j * den ≤ k * den := (Nat.mul_le_mul_right_iff hden).symm
  have hwhole := hle (num / den)
  have hnext := hle (num / den + 1)
  have habove := hge (num / den + 1)
  have hbeyond := hge (num / den + 2)
  simp only [Nat.add_mul, Nat.one_mul] at hnext habove hbeyond
  unfold roundDiv
  dsimp only
  split_ifs <;> omega

theorem binaryExponent_one {m : Nat} (hm : m ≠ 0) : binaryExponent m 1 = m.log2 := by
  have hlog : Nat.log2 1 = 0 := rfl
  have hback : (-((m.log2 : Int) - (0 : Nat))).toNat = 0 := by omega
  have hle : shift 1 ((m.log2 : Int) - (0 : Nat)) ≤ shift m (-((m.log2 : Int) - (0 : Nat))) := by
    rw [shift, shift, hback, Int.natCast_zero, Int.sub_zero, Int.toNat_natCast, Nat.one_shiftLeft,
      Nat.shiftLeft_zero]
    exact Nat.log2_self_le hm
  rw [binaryExponent, hlog, if_pos hle, Int.natCast_zero, Int.sub_zero]

/-- The quotient from which the mantissa of a whole number is rounded. -/
theorem mantissa_bounds {m : Nat} (hm : m ≠ 0) :
    0 < shift 1 ((m.log2 : Int) - 52) ∧
      2 ^ 52 * shift 1 ((m.log2 : Int) - 52) ≤ shift m (-((m.log2 : Int) - 52)) ∧
      shift m (-((m.log2 : Int) - 52)) < 2 ^ 53 * shift 1 ((m.log2 : Int) - 52) := by
  have hlow := Nat.log2_self_le hm
  have hhigh := Nat.lt_log2_self (n := m)
  rw [Nat.pow_succ] at hhigh
  simp only [shift, Nat.shiftLeft_eq, Nat.one_mul]
  refine ⟨Nat.two_pow_pos _, ?_⟩
  by_cases hsmall : m.log2 ≤ 52
  · have hden : ((m.log2 : Int) - 52).toNat = 0 := by omega
    have hnum : (-((m.log2 : Int) - 52)).toNat = 52 - m.log2 := by omega
    have hpow : 2 ^ m.log2 * 2 ^ (52 - m.log2) = 2 ^ 52 := by
      rw [← Nat.pow_add, Nat.add_sub_cancel' hsmall]
    have hleast := Nat.mul_le_mul_right (2 ^ (52 - m.log2)) hlow
    have hmost := Nat.mul_lt_mul_of_pos_right hhigh (Nat.two_pow_pos (52 - m.log2))
    rw [Nat.mul_right_comm] at hmost
    rw [hden, hnum]
    omega
  · have hden : ((m.log2 : Int) - 52).toNat = m.log2 - 52 := by omega
    have hnum : (-((m.log2 : Int) - 52)).toNat = 0 := by omega
    have hpow : 2 ^ 52 * 2 ^ (m.log2 - 52) = 2 ^ m.log2 := by
      rw [← Nat.pow_add, Nat.add_sub_cancel' (by omega)]
    rw [hden, hnum]
    omega

/-- Half of the last place above the greatest double. -/
def overflowBound : Nat := (2 ^ 54 - 1) * 2 ^ 970

/-- Whole numbers are no doubles from half of the last place above the greatest double on. -/
theorem ofInt?_eq_none_iff (n : Int) : ofInt? n = none ↔ overflowBound ≤ n.natAbs := by
  unfold ofInt? overflowBound
  generalize n.natAbs = m
  -- With a name for the exponent, no step below computes the power.
  generalize hexponent : 970 = e
  have hnone : (if roundToBits m 1 < infinityBits then some (ofBits (n < 0) (roundToBits m 1)) else none) = none ↔
      infinityBits ≤ roundToBits m 1 := by
    rw [ite_eq_right_iff]
    simp
  refine hnone.trans ?_
  by_cases hm : m = 0
  · subst hm
    have hpos : 0 < (2 ^ 54 - 1) * 2 ^ e := Nat.mul_pos (by decide) (Nat.two_pow_pos e)
    rw [roundToBits, if_pos rfl]
    exact iff_of_false (by decide) (Nat.not_le.mpr hpos)
  have hunit : max (binaryExponent m 1 - 52) (-1074) = (m.log2 : Int) - 52 := by
    rw [binaryExponent_one hm]
    omega
  have hbits : ((m.log2 : Int) - 52 + 1074).toNat = m.log2 + 1022 := by omega
  obtain ⟨hden, hlow, hhigh⟩ := mantissa_bounds hm
  have hfirst := Nat.log2_self_le hm
  have hlast := Nat.lt_log2_self (n := m)
  rw [roundToBits, if_neg hm, infinityBits, Nat.shiftLeft_eq]
  dsimp only
  rw [hunit, hbits, Nat.shiftLeft_eq, Nat.le_min, and_iff_left (Nat.le_refl _)]
  rcases Nat.lt_trichotomy m.log2 1023 with hlt | heq | hgt
  · have hmantissa := le_roundDiv_iff (k := 3 * 2 ^ 52) (shift m (-((m.log2 : Int) - 52))) hden (by decide)
    have hle : m.log2 + 1 ≤ 53 + e := by omega
    have hsmall := Nat.lt_of_lt_of_le hlast (Nat.pow_le_pow_right (by decide) hle)
    rw [Nat.pow_add 2 53 e] at hsmall
    generalize 2 ^ e = unit at *
    omega
  · have hmantissa := le_roundDiv_iff (k := 2 ^ 53) (shift m (-((m.log2 : Int) - 52))) hden (by decide)
    have hnum : shift m (-((m.log2 : Int) - 52)) = m := by
      rw [heq]
      exact Nat.shiftLeft_zero
    have hunit : shift 1 ((m.log2 : Int) - 52) = 2 * 2 ^ e := by
      have hsucc : ((m.log2 : Int) - 52).toNat = e + 1 := by omega
      rw [shift, hsucc, Nat.one_shiftLeft, Nat.pow_succ']
    rw [hnum, hunit] at hmantissa hlow hhigh ⊢
    generalize 2 ^ e = unit at *
    omega
  · have hmantissa := le_roundDiv_iff (k := 2 ^ 52) (shift m (-((m.log2 : Int) - 52))) hden (by decide)
    have hle : 54 + e ≤ m.log2 := by omega
    have hlarge := Nat.le_trans (Nat.pow_le_pow_right (by decide) hle) hfirst
    rw [Nat.pow_add 2 54 e] at hlarge
    generalize 2 ^ e = unit at *
    omega

end Number

namespace Settings

namespace Key

/-- The name that clients use, and the name of the setting itself. -/
def names : Key → List String
  | .maxProblems => ["maxNumberOfProblems", "max_number_of_problems"]
  | .maxDepth => ["maxFilesSearchDepth", "max_files_search_depth"]
  | .delay => ["debounceDelay", "debounce_delay"]
  | .extension => ["fileExtension", "file_extension"]
  | .reportUnresolved => ["reportUnresolvedReferences", "report_unresolved_references"]

theorem ofName?_eq_some_iff (name : String) (key : Key) : ofName? name = some key ↔ name ∈ key.names := by
  constructor
  · intro h
    unfold ofName? at h
    split at h <;> cases h <;> decide
  · cases key <;> simp only [names, List.mem_cons, List.not_mem_nil, or_false] <;>
      rintro (rfl | rfl) <;> rfl

theorem section_not_mem_names (key : Key) : "mlang" ∉ key.names := by
  cases key <;> decide

abbrev Value : Key → Type
  | .maxProblems => Int
  | .maxDepth => Option Int
  | .delay => Float
  | .extension => String
  | .reportUnresolved => Bool

/-- The value of a setting that a payload stands for. -/
def read? : (key : Key) → Payload → Option key.Value
  | .maxProblems, value => readInt? value
  | .maxDepth, value => readDepth? value
  | .delay, value => (readDelay value).toOption.join
  | .extension, value => readString? value
  | .reportUnresolved, value => readBool? value

/-- The value of a setting that stands in a field of a payload. -/
def valueIn? (key : Key) (field : String × Payload) : Option key.Value :=
  if field.1 ∈ key.names then key.read? field.2 else none

end Key

def get (s : Settings) : (key : Key) → key.Value
  | .maxProblems => s.maxProblems
  | .maxDepth => s.maxDepth
  | .delay => s.delay
  | .extension => s.extension
  | .reportUnresolved => s.reportUnresolved

def set (s : Settings) : (key : Key) → key.Value → Settings
  | .maxProblems, n => { s with maxProblems := n }
  | .maxDepth, d => { s with maxDepth := d }
  | .delay, x => { s with delay := x }
  | .extension, e => { s with extension := e }
  | .reportUnresolved, b => { s with reportUnresolved := b }

theorem get_set_self (s : Settings) (key : Key) (value : key.Value) : (s.set key value).get key = value := by
  cases key <;> rfl

theorem get_set_of_ne (s : Settings) {key other : Key} (h : other ≠ key) (value : key.Value) :
    (s.set key value).get other = s.get other := by
  cases key <;> cases other <;> simp_all [get, set]

theorem ext_get {s s' : Settings} (h : ∀ key, s.get key = s'.get key) : s = s' := by
  obtain ⟨_, _, _, _, _⟩ := s
  have hproblems := h .maxProblems
  have hdepth := h .maxDepth
  have hdelay := h .delay
  have hextension := h .extension
  have hreport := h .reportUnresolved
  simp only [get] at *
  subst_vars
  rfl

/-- A field gives a whole number for the delay that is too large for a double. -/
def Overflows (field : String × Payload) : Prop :=
  field.1 ∈ Key.delay.names ∧ ∃ n, field.2 = .integer n ∧ Number.overflowBound ≤ n.natAbs

theorem readDelay_eq_error_iff (value : Payload) :
    readDelay value = .error ⟨⟩ ↔ ∃ n, value = .integer n ∧ Number.overflowBound ≤ n.natAbs := by
  unfold readDelay
  cases value with
  | integer n =>
    simp only [Payload.integer.injEq, exists_eq_left', ← Number.ofInt?_eq_none_iff]
    cases Number.ofInt? n <;> simp
  | _ => simp

theorem assign_eq (s : Settings) (key : Key) (value : Payload)
    (h : key = .delay → readDelay value ≠ .error ⟨⟩) :
    s.assign key value = .ok ((key.read? value).elim s (s.set key)) := by
  cases key with
  | delay =>
    cases hread : readDelay value with
    | error e => exact absurd hread (h rfl)
    | ok x? =>
      simp only [assign, Key.read?, hread]
      rfl
  | _ => rfl

/-- What one field does: it overflows, or sets the setting that it is for. -/
theorem assignNamed_cases (s : Settings) (field : String × Payload) :
    (Overflows field ∧ s.assignNamed field = .error ⟨⟩) ∨
      (¬ Overflows field ∧ ∃ s', s.assignNamed field = .ok s' ∧
        ∀ key, s'.get key = (key.valueIn? field).getD (s.get key)) := by
  have hvalue (key : Key) (hother : Key.ofName? field.1 ≠ some key) : key.valueIn? field = none := by
    rw [ne_eq, Key.ofName?_eq_some_iff] at hother
    exact if_neg hother
  have hoverflows : Overflows field ↔ Key.ofName? field.1 = some .delay ∧ readDelay field.2 = .error ⟨⟩ := by
    rw [Overflows, Key.ofName?_eq_some_iff, readDelay_eq_error_iff]
  rw [hoverflows]
  unfold assignNamed
  cases hname : Key.ofName? field.1 with
  | none =>
    refine .inr ⟨nofun, s, rfl, fun key => ?_⟩
    rw [hvalue key (by simp [hname])]
    rfl
  | some named =>
    by_cases hover : named = .delay ∧ readDelay field.2 = .error ⟨⟩
    · obtain ⟨rfl, hread⟩ := hover
      refine .inl ⟨⟨rfl, hread⟩, ?_⟩
      simp only [assign, hread]
      rfl
    refine .inr ⟨fun h => hover ⟨Option.some.inj h.1, h.2⟩, _,
      s.assign_eq named field.2 fun hdelay hread => hover ⟨hdelay, hread⟩, fun key => ?_⟩
    by_cases hkey : key = named
    · subst hkey
      rw [Key.valueIn?, if_pos ((Key.ofName?_eq_some_iff _ _).mp hname)]
      cases key.read? field.2 with
      | none => rfl
      | some value => exact s.get_set_self key value
    · rw [hvalue key (by simp [hname, Ne.symm hkey])]
      cases named.read? field.2 with
      | none => rfl
      | some value => exact s.get_set_of_ne hkey value

/-- What a run over the fields does: it overflows at one of them, or sets each setting to the last value for it. -/
theorem foldlM_cases (s : Settings) (fields : List (String × Payload)) :
    ((∃ field ∈ fields, Overflows field) ∧ fields.foldlM assignNamed s = .error ⟨⟩) ∨
      ((∀ field ∈ fields, ¬ Overflows field) ∧ ∃ s', fields.foldlM assignNamed s = .ok s' ∧
        ∀ key, s'.get key = (fields.filterMap key.valueIn?).getLast?.getD (s.get key)) := by
  induction fields generalizing s with
  | nil => exact .inr ⟨nofun, s, rfl, fun _ => rfl⟩
  | cons field fields ih =>
    rw [List.foldlM_cons]
    rcases s.assignNamed_cases field with ⟨hover, herror⟩ | ⟨hfits, s', hok, hget⟩
    · rw [herror]
      exact .inl ⟨⟨field, List.mem_cons_self, hover⟩, rfl⟩
    rw [hok]
    rcases ih s' with ⟨⟨other, hmem, hover⟩, herror⟩ | ⟨hmore, s'', hok', hget'⟩
    · exact .inl ⟨⟨other, List.mem_cons_of_mem _ hmem, hover⟩, herror⟩
    refine .inr ⟨List.forall_mem_cons.mpr ⟨hfits, hmore⟩, s'', hok', fun key => ?_⟩
    rw [hget', hget, List.filterMap_cons]
    cases key.valueIn? field with
    | none => rfl
    | some value => rw [List.getLast?_cons, Option.getD_some, Option.getD_some]

/-- The part of an object in which the settings stand. -/
def IsSection (fields inner : List (String × Payload)) : Prop :=
  fields.lookup "mlang" = some (.object inner) ∨
    inner = fields ∧ ∀ other, fields.lookup "mlang" ≠ some (.object other)

theorem update_object {fields inner : List (String × Payload)} (h : IsSection fields inner) (s : Settings) :
    s.update (.object fields) = inner.foldlM assignNamed s := by
  rcases h with hinner | ⟨rfl, hnone⟩
  · simp only [update, fieldsOf, sectionName, hinner]
  · cases hlookup : inner.lookup "mlang" with
    | none => simp only [update, fieldsOf, sectionName, hlookup]
    | some value =>
      cases value with
      | object other => exact absurd hlookup (hnone other)
      | _ => simp only [update, fieldsOf, sectionName, hlookup]

/-- A payload changes each setting to the last value for it, under either of its names, that can be converted; all
other fields are passed over. Applying it again changes nothing more. Only a delay too large for a double refuses
the payload, and then none of the settings changes, nor does a server that was sent it. -/
theorem update_fieldwise (s : Settings) :
    (∀ payload, (∀ fields, payload ≠ .object fields) → s.update payload = .ok s) ∧
    ∀ fields inner, IsSection fields inner →
      ((∃ field ∈ inner, Overflows field) ∧ s.update (.object fields) = .error ⟨⟩ ∧
        ∀ server : Server, server.settings = s →
          server.applySettings (.object fields) = .error ⟨⟩ ∧ server.configure (.object fields) = .error ⟨⟩) ∨
      ((∀ field ∈ inner, ¬ Overflows field) ∧ ∃ s', s.update (.object fields) = .ok s' ∧
        (∀ key, s'.get key = (inner.filterMap key.valueIn?).getLast?.getD (s.get key)) ∧
        s'.update (.object fields) = .ok s' ∧
        ∀ key, ∃ s'', s.update (.object (inner.filter fun field => (key.valueIn? field).isSome)) = .ok s'' ∧
          s''.get key = s'.get key) := by
  constructor
  · intro payload hpayload
    cases payload with
    | object fields => exact absurd rfl (hpayload fields)
    | _ => rfl
  intro fields inner hsection
  rcases s.foldlM_cases inner with ⟨hover, herror⟩ | ⟨hfits, s', hok, hget⟩
  · left
    rw [← update_object hsection] at herror
    refine ⟨hover, herror, ?_⟩
    rintro server rfl
    unfold Server.configure Server.applySettings
    rw [herror]
    exact ⟨rfl, rfl⟩
  right
  refine ⟨hfits, s', (update_object hsection s).trans hok, hget, ?_, ?_⟩
  · rw [update_object hsection]
    rcases s'.foldlM_cases inner with ⟨⟨field, hmem, hover⟩, -⟩ | ⟨-, s'', hok', hget'⟩
    · exact absurd hover (hfits field hmem)
    have hsame : s'' = s' := by
      apply ext_get
      intro key
      rw [hget', hget]
      cases (inner.filterMap key.valueIn?).getLast? <;> rfl
    rw [hok', hsame]
  · intro key
    have hsuits : IsSection (inner.filter fun field => (key.valueIn? field).isSome)
        (inner.filter fun field => (key.valueIn? field).isSome) := by
      refine .inr ⟨rfl, fun other hother => ?_⟩
      obtain ⟨before, after, heq, -⟩ := List.lookup_eq_some_iff.mp hother
      have hmem : ("mlang", Payload.object other) ∈ inner.filter fun field => (key.valueIn? field).isSome := by
        rw [heq]
        simp
      have hnone : key.valueIn? ("mlang", .object other) = none := if_neg key.section_not_mem_names
      simp [hnone] at hmem
    rcases s.foldlM_cases (inner.filter fun field => (key.valueIn? field).isSome) with
      ⟨⟨field, hmem, hover⟩, -⟩ | ⟨-, s'', hok', hget'⟩
    · exact absurd hover (hfits field (List.mem_filter.mp hmem).1)
    refine ⟨s'', (update_object hsuits s).trans hok', ?_⟩
    rw [hget', hget, List.filterMap_filter]
    congr 3
    funext field
    cases key.valueIn? field <;> rfl

end Settings

end MatrixScript
