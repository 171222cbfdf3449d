import Mathlib
import ExactCalc.Json.Reader

/-!
# The text of a document

A document is read from its text as itself, unless more objects stand inside each other than the reader allows
(`Document.text_roundTrip`). The text is compact JSON, so it is read in two steps: the text is the one of a JSON value
(`Document.isReadAs_toChars`), and this value is the one of the document (`Document.decode_toJson`).

* `JsonLibrary.Lawful` is all that documents rely on in a library for JSON, and the two steps are taken for any
  such library. `JsonValue.ofText?` and `Document.ofValue?` are one (`lawful_jsonLibrary`).
* `JsonValue.IsReadAs` says what is read from a text that stands before any other; that there is nothing to be read is
  part of it, since a value that is too deep makes all that is around it unreadable.
* `JsonValue.stringTail?_escape`: a string is read up to its closing quote, whatever characters it has.
-/

namespace ExactCalc

namespace JsonValue

open Document (escapeChar hexEscape stringChars member)

/-! ## Strings -/

theorem hexUnit?_append {ds more rest : List Char} {n : Nat} (h : hexUnit? ds = some (n, rest)) :
    hexUnit? (ds ++ more) = some (n, rest ++ more) := by
  unfold hexUnit? at h
  split at h
  · simp only [Option.bind_eq_bind, Option.bind_eq_some_iff, pure, Option.some.injEq, Prod.mk.injEq] at h
    obtain ⟨a, ha, b, hb, c, hc, d, hd, rfl, rfl⟩ := h
    simp [hexUnit?, ha, hb, hc, hd]
  · simp at h

theorem hexUnit?_hexEscape : ∀ n < 0x20, ∃ ds, hexEscape n = '\\' :: 'u' :: ds ∧ hexUnit? ds = some (n, []) := by
  have hdigits : ∀ n < 0x20, hexUnit? ((hexEscape n).drop 2) = some (n, []) := by decide
  exact fun n hn => ⟨_, rfl, hdigits n hn⟩

/-- A character is written as an escape that is read as it, or it stands for itself. -/
theorem escapeChar_cases (c : Char) :
    (∃ e, escapeChar c = '\\' :: e ∧ ∀ more, escape? (e ++ more) = some (c, more)) ∨
      escapeChar c = [c] ∧ c ≠ '\x22' ∧ c ≠ '\\' ∧ ¬ c.toNat < 0x20 := by
  unfold escapeChar
  split_ifs with hquote hback hb ht hn hf hr hcontrol
  · exact .inl ⟨_, rfl, fun more => by rw [hquote]; rfl⟩
  · exact .inl ⟨_, rfl, fun more => by rw [hback]; rfl⟩
  · exact .inl ⟨_, rfl, fun more => by rw [hb]; rfl⟩
  · exact .inl ⟨_, rfl, fun more => by rw [ht]; rfl⟩
  · exact .inl ⟨_, rfl, fun more => by rw [hn]; rfl⟩
  · exact .inl ⟨_, rfl, fun more => by rw [hf]; rfl⟩
  · exact .inl ⟨_, rfl, fun more => by rw [hr]; rfl⟩
  · obtain ⟨ds, hds, hunit⟩ := hexUnit?_hexEscape c.toNat hcontrol
    refine .inl ⟨'u' :: ds, hds, fun more => ?_⟩
    have hsmall : c.toNat < 0xd800 := by omega
    simp [escape?, unitEscape?, hexUnit?_append hunit, hsmall]
  · exact .inr ⟨rfl, hquote, hback, hcontrol⟩

theorem stringTail?_escape (cs rest : List Char) {fuel : Nat} (h : cs.length < fuel) :
    stringTail? fuel (cs.flatMap escapeChar ++ '\x22' :: rest) = some (cs, rest) := by
  induction cs generalizing fuel with
  | nil =>
    obtain ⟨fuel, rfl⟩ := Nat.exists_eq_add_one_of_ne_zero (Nat.ne_zero_of_lt h)
    rfl
  | cons c cs ih =>
    obtain ⟨fuel, rfl⟩ := Nat.exists_eq_add_one_of_ne_zero (Nat.ne_zero_of_lt h)
    have hrest := ih (Nat.lt_of_succ_lt_succ h)
    rw [List.flatMap_cons, List.append_assoc]
    obtain ⟨e, he, hread⟩ | ⟨hself, hquote, hback, hcontrol⟩ := escapeChar_cases c
    · rw [he, List.cons_append]
      simp [stringTail?, hread, hrest]
    · rw [hself, List.singleton_append]
      simp [stringTail?, hquote, hback, hcontrol, hrest]

theorem length_le_flatMap_escapeChar (cs : List Char) : cs.length ≤ (cs.flatMap escapeChar).length := by
  induction cs with
  | nil => exact le_rfl
  | cons c cs ih =>
    have hpos : 0 < (escapeChar c).length := by
      obtain ⟨e, he, -⟩ | ⟨hself, -⟩ := escapeChar_cases c
      · simp [he]
      · simp [hself]
    rw [List.flatMap_cons, List.length_append, List.length_cons]
    omega

theorem string?_escape (s : String) (rest : List Char) :
    string? (s.toList.flatMap escapeChar ++ '\x22' :: rest) = some (s, rest) := by
  have hlen := length_le_flatMap_escapeChar s.toList
  have hfuel : s.toList.length < (s.toList.flatMap escapeChar ++ '\x22' :: rest).length := by
    rw [List.length_append, List.length_cons]
    omega
  rw [string?, stringTail?_escape _ _ hfuel]
  simp

/-! ## Values -/

theorem skipSpace_cons {c : Char} (h : isSpace c = false) (cs : List Char) : skipSpace (c :: cs) = c :: cs :=
  List.dropWhile_cons_of_neg (by simp [h])

/-- What is read from a text in which at most `depth` arrays and objects may stand inside each other, whatever follows
it. The length of the text is enough for the number of rounds. -/
def IsReadAs (depth : Nat) (cs : List Char) (v : Option JsonValue) : Prop :=
  ∀ fuel rest, cs.length ≤ fuel → value? fuel depth (cs ++ rest) = v.map (·, rest)

theorem isReadAs_string (depth : Nat) (s : String) : IsReadAs depth (stringChars s) (some (string s)) := by
  intro fuel rest hfuel
  obtain ⟨fuel, rfl⟩ := Nat.exists_eq_add_one_of_ne_zero (Nat.ne_zero_of_lt hfuel)
  rw [stringChars, List.cons_append, List.append_assoc, List.singleton_append, value?, skipSpace_cons rfl]
  simp [string?_escape]

/-- A member of an object: its name, the text of its value, and what is read from this text. -/
structure Field where
  name : String
  chars : List Char
  value : Option JsonValue

def Field.text (f : Field) : List Char := member f.name f.chars

def fieldsChars : List Field → List Char
  | [] => []
  | [f] => f.text
  | f :: g :: fs => f.text ++ ',' :: fieldsChars (g :: fs)

def fieldsValue (fs : List Field) : Option (List (String × JsonValue)) := fs.mapM fun f => f.value.map (f.name, ·)

section
variable {fuel depth : Nat} {f : Field}

theorem Field.length_chars_lt (f : Field) : f.chars.length < f.text.length := by
  rw [text, member, List.length_append, List.length_cons]
  omega

theorem members?_text (hf : IsReadAs depth f.chars f.value) (hfuel : f.text.length ≤ fuel + 1) (rest : List Char) :
    members? (fuel + 1) depth (f.text ++ rest) = f.value.bind fun x =>
      match skipSpace rest with
      | '\x7d' :: rest => some ([(f.name, x)], rest)
      | ',' :: rest => (members? fuel depth rest).bind fun (ms, rest) => some ((f.name, x) :: ms, rest)
      | _ => none := by
  have hlen := f.length_chars_lt
  have hvalue := hf fuel rest (by omega)
  rw [Field.text, member, stringChars, List.cons_append, List.cons_append, List.append_assoc, List.append_assoc,
    List.singleton_append, List.cons_append, members?, skipSpace_cons rfl]
  simp only [string?_escape, Option.bind_eq_bind, Option.bind_some, skipSpace_cons (c := ':') rfl, hvalue]
  cases f.value with
  | none => rfl
  | some x => rfl

theorem members?_fieldsChars {fs : List Field} (hne : fs ≠ []) (hfs : ∀ f ∈ fs, IsReadAs depth f.chars f.value)
    (hfuel : (fieldsChars fs).length ≤ fuel) (rest : List Char) :
    members? fuel depth (fieldsChars fs ++ '\x7d' :: rest) = (fieldsValue fs).map (·, rest) := by
  induction fs generalizing fuel with
  | nil => exact absurd rfl hne
  | cons f fs ih =>
    obtain ⟨hf, hrest⟩ := List.forall_mem_cons.mp hfs
    have hpos := f.length_chars_lt
    cases fs with
    | nil =>
      rw [fieldsChars] at hfuel ⊢
      obtain ⟨fuel, rfl⟩ := Nat.exists_eq_add_one_of_ne_zero (show fuel ≠ 0 by omega)
      rw [members?_text hf hfuel, skipSpace_cons rfl]
      cases hv : f.value <;> simp [fieldsValue, hv]
    | cons g fs =>
      rw [fieldsChars, List.length_append, List.length_cons] at hfuel
      obtain ⟨fuel, rfl⟩ := Nat.exists_eq_add_one_of_ne_zero (show fuel ≠ 0 by omega)
      have hmore := ih (by simp) hrest (show (fieldsChars (g :: fs)).length ≤ fuel by omega)
      rw [fieldsChars, List.append_assoc, List.cons_append, members?_text hf (by omega), skipSpace_cons rfl]
      cases hv : f.value with
      | none => simp [fieldsValue, hv]
      | some x =>
        simp only [Option.bind_some, hmore]
        cases hvs : fieldsValue (g :: fs) with
        | none =>
          unfold fieldsValue at hvs ⊢
          rw [List.mapM_cons, hvs, hv]
          rfl
        | some ms =>
          unfold fieldsValue at hvs ⊢
          rw [List.mapM_cons, hvs, hv]
          rfl

def objectChars (fs : List Field) : List Char := '\x7b' :: (fieldsChars fs ++ ['\x7d'])

/-- An object takes one of the arrays and objects that may stand inside each other. -/
theorem isReadAs_object {fs : List Field} (hne : fs ≠ []) (hfs : ∀ f ∈ fs, IsReadAs depth f.chars f.value) :
    IsReadAs (depth + 1) (objectChars fs) ((fieldsValue fs).map object) := by
  intro fuel rest hfuel
  rw [objectChars, List.length_cons, List.length_append, List.length_singleton] at hfuel
  obtain ⟨fuel, rfl⟩ := Nat.exists_eq_add_one_of_ne_zero (show fuel ≠ 0 by omega)
  have hread := members?_fieldsChars hne hfs (show (fieldsChars fs).length ≤ fuel by omega) rest
  obtain ⟨f, fs, rfl⟩ := List.exists_cons_of_ne_nil hne
  have hquote : ∃ cs, fieldsChars (f :: fs) ++ '\x7d' :: rest = '\x22' :: cs := by
    cases fs <;> exact ⟨_, rfl⟩
  obtain ⟨cs, hcs⟩ := hquote
  rw [objectChars, List.cons_append, List.append_assoc, List.singleton_append, value?, skipSpace_cons rfl]
  rw [hcs] at hread ⊢
  simp only [skipSpace_cons (c := '\x22') rfl]
  split
  · rename_i hclose
    simp at hclose
  · rw [hread]
    cases fieldsValue (f :: fs) <;> rfl

theorem isReadAs_object_zero (fs : List Field) : IsReadAs 0 (objectChars fs) none := by
  intro fuel rest hfuel
  obtain ⟨fuel, rfl⟩ := Nat.exists_eq_add_one_of_ne_zero (Nat.ne_zero_of_lt hfuel)
  rw [objectChars, List.cons_append, value?, skipSpace_cons rfl]
  rfl

end

def Field.ofString (name s : String) : Field := ⟨name, stringChars s, some (string s)⟩

end JsonValue

/-! ## Libraries -/

/-- What documents use of a library for JSON. -/
structure JsonLibrary where
  read : String → Option JsonValue
  /-- What is read from characters before any others, with so many arrays and objects at most inside each other. -/
  IsReadAs : (depth : Nat) → List Char → Option JsonValue → Prop
  /-- The document of a value, which may stand inside another one, with so many documents at most inside each other. -/
  decode : (depth : Nat) → (inner : Bool) → JsonValue → Option Document

open Document (numberTag calculationTag phraseTag stringChars)

/-- What documents rely on: the library reads compact JSON down to 127 objects inside each other, and takes an
object for the document that its first member names. -/
structure JsonLibrary.Lawful (lib : JsonLibrary) : Prop where
  read_eq : ∀ cs v, lib.IsReadAs 127 cs v → lib.read (String.ofList cs) = v
  string : ∀ depth s, lib.IsReadAs depth (stringChars s) (some (.string s))
  object : ∀ depth fs, fs ≠ [] → (∀ f ∈ fs, lib.IsReadAs depth f.chars f.value) →
    lib.IsReadAs (depth + 1) (JsonValue.objectChars fs) ((JsonValue.fieldsValue fs).map .object)
  too_deep : ∀ fs, lib.IsReadAs 0 (JsonValue.objectChars fs) none
  decode_number : ∀ depth inner s,
    lib.decode (depth + 1) inner (.object [("type", .string numberTag), ("value", .string s)]) = some (.number s)
  decode_phrase : ∀ depth inner s,
    lib.decode (depth + 1) inner (.object [("type", .string phraseTag), ("value", .string s)]) = some (.phrase s)
  decode_calculation : ∀ depth inner v w left op right, lib.decode depth true v = some left →
    lib.decode depth true w = some right →
    lib.decode (depth + 1) inner (.object [("type", .string calculationTag), ("left", v),
      ("operation", .string op.text), ("right", w)]) = some (.calculation left op right)

def jsonLibrary : JsonLibrary := ⟨JsonValue.ofText?, JsonValue.IsReadAs, Document.ofValue?⟩

theorem JsonValue.ofText?_of_isReadAs {cs : List Char} {v : Option JsonValue} (h : IsReadAs depthLimit cs v) :
    ofText? (String.ofList cs) = v := by
  have hread := h (2 * cs.length + 2) [] (by omega)
  rw [List.append_nil] at hread
  rw [ofText?, String.toList_ofList]
  simp only [hread]
  cases v with
  | none => rfl
  | some v => simp [skipSpace]

theorem Document.ofValue?_calculation {depth : Nat} (inner : Bool) {v w : JsonValue} {left right : Document}
    {op : Operation} (hl : ofValue? depth true v = some left) (hr : ofValue? depth true w = some right) :
    ofValue? (depth + 1) inner (.object [("type", .string calculationTag), ("left", v), ("operation", .string op.text),
      ("right", w)]) = some (.calculation left op right) := by
  have hop : operation? (.string op.text) = some op := op.ofSymbol?_text
  have hparts : parts? inner (.object [("type", .string calculationTag), ("left", v), ("operation", .string op.text),
      ("right", w)]) = some (.calculation, [v, .string op.text, w]) := rfl
  rw [ofValue?, hparts]
  simp [hl, hr, hop]

theorem lawful_jsonLibrary : jsonLibrary.Lawful where
  read_eq _ _ h := JsonValue.ofText?_of_isReadAs h
  string := JsonValue.isReadAs_string
  object _ _ hne hfs := JsonValue.isReadAs_object hne hfs
  too_deep := JsonValue.isReadAs_object_zero
  decode_number _ _ _ := rfl
  decode_phrase _ _ _ := rfl
  decode_calculation _ inner _ _ _ _ _ hl hr := Document.ofValue?_calculation inner hl hr

/-! ## Documents -/

namespace Document

open JsonValue (IsReadAs Field)

/-- How many objects stand inside each other. -/
def nesting : Document → Nat
  | number _ | phrase _ => 1
  | calculation left _ right => max left.nesting right.nesting + 1

def toJson : Document → JsonValue
  | number value => .object [("type", .string numberTag), ("value", .string value)]
  | calculation left op right =>
    .object [("type", .string calculationTag), ("left", left.toJson), ("operation", .string op.text),
      ("right", right.toJson)]
  | phrase value => .object [("type", .string phraseTag), ("value", .string value)]

def calculationFields (left : Document) (op : Operation) (right : Document) (v w : Option JsonValue) : List Field :=
  [.ofString "type" calculationTag, ⟨"left", left.toChars, v⟩, .ofString "operation" op.text,
    ⟨"right", right.toChars, w⟩]

theorem toChars_calculation (left right : Document) (op : Operation) (v w : Option JsonValue) :
    (calculation left op right).toChars = JsonValue.objectChars (calculationFields left op right v w) := by
  simp [toChars, JsonValue.objectChars, JsonValue.fieldsChars, JsonValue.Field.text, Field.ofString, calculationFields]

section
variable {lib : JsonLibrary} (h : lib.Lawful)
include h

theorem isReadAs_leaf (depth : Nat) (tag value : String) :
    lib.IsReadAs depth (JsonValue.objectChars [.ofString "type" tag, .ofString "value" value])
      (if 1 ≤ depth then some (.object [("type", .string tag), ("value", .string value)]) else none) := by
  cases depth with
  | zero => exact h.too_deep _
  | succ depth =>
    have hfields : ∀ f ∈ [Field.ofString "type" tag, Field.ofString "value" value],
        lib.IsReadAs depth f.chars f.value := by
      simp [Field.ofString, h.string]
    rw [if_pos (by omega)]
    exact h.object _ _ (by simp) hfields

/-- The text of a document is the one of its JSON value, unless it is too deep. -/
theorem isReadAs_toChars (d : Document) (depth : Nat) :
    lib.IsReadAs depth d.toChars (if d.nesting ≤ depth then some d.toJson else none) := by
  induction d generalizing depth with
  | number value => exact isReadAs_leaf h depth numberTag value
  | phrase value => exact isReadAs_leaf h depth phraseTag value
  | calculation left op right ihl ihr =>
    cases depth with
    | zero =>
      rw [toChars_calculation left right op none none]
      exact h.too_deep _
    | succ depth =>
      have hfields : ∀ f ∈ calculationFields left op right (if left.nesting ≤ depth then some left.toJson else none)
          (if right.nesting ≤ depth then some right.toJson else none), lib.IsReadAs depth f.chars f.value := by
        simpa [calculationFields, Field.ofString, h.string] using ⟨ihl depth, ihr depth⟩
      have hobject := h.object _ _ (by simp [calculationFields]) hfields
      rw [← toChars_calculation] at hobject
      have hnesting : (calculation left op right).nesting ≤ depth + 1 ↔
          left.nesting ≤ depth ∧ right.nesting ≤ depth := by
        rw [nesting, Nat.add_le_add_iff_right, max_le_iff]
      simp only [hnesting]
      by_cases hl : left.nesting ≤ depth
      · by_cases hr : right.nesting ≤ depth
        · simpa [hl, hr, calculationFields, JsonValue.fieldsValue, Field.ofString, toJson] using hobject
        · simpa [hl, hr, calculationFields, JsonValue.fieldsValue, Field.ofString] using hobject
      · simpa [hl, calculationFields, JsonValue.fieldsValue, Field.ofString] using hobject

/-! ## Reading -/

theorem decode_toJson (d : Document) {depth : Nat} (hd : d.nesting ≤ depth) (inner : Bool) :
    lib.decode depth inner d.toJson = some d := by
  induction d generalizing depth inner with
  | number value =>
    obtain ⟨depth, rfl⟩ := Nat.exists_eq_add_one_of_ne_zero (Nat.ne_zero_of_lt hd)
    exact h.decode_number depth inner value
  | phrase value =>
    obtain ⟨depth, rfl⟩ := Nat.exists_eq_add_one_of_ne_zero (Nat.ne_zero_of_lt hd)
    exact h.decode_phrase depth inner value
  | calculation left op right ihl ihr =>
    rw [nesting] at hd
    obtain ⟨depth, rfl⟩ := Nat.exists_eq_add_one_of_ne_zero (Nat.ne_zero_of_lt hd)
    rw [Nat.add_le_add_iff_right, max_le_iff] at hd
    exact h.decode_calculation depth inner _ _ _ _ _ (ihl hd.1 true) (ihr hd.2 true)

/-- Any library that reads compact JSON reads a document from its text as itself. -/
theorem read_text (d : Document) :
    (lib.read d.text).bind (lib.decode 127 false) = if d.nesting ≤ 127 then some d else none := by
  rw [text, h.read_eq _ _ (isReadAs_toChars h d 127)]
  split_ifs with hd
  · exact decode_toJson h d hd false
  · rfl

end

/-- A document is read from its text as itself, unless more than 127 objects stand inside each other; then it is not
read at all. -/
theorem text_roundTrip (d : Document) : ofText? d.text = if d.nesting ≤ 127 then some d else none :=
  read_text lawful_jsonLibrary d

end Document

end ExactCalc
