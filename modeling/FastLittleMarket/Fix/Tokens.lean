import FastLittleMarket.Fix.Lookup

/-!
A tokenizer that knows nothing of buffers: every byte string is a sequence of fields,
none of them CheckSum, and an end that holds no further one. And the number in a value,
as `parseInt` reads it and as it would over unbounded integers.
-/

namespace FastLittleMarket.Fix

section Tokens

/-- The bytes up to the first delimiter and those behind it. -/
def cut (delimiter : UInt8) : List UInt8 → Option (List UInt8 × List UInt8)
  | [] => none
  | b :: bytes =>
      if b = delimiter then some ([], bytes)
      else (cut delimiter bytes).map fun parts => (b :: parts.1, parts.2)

theorem cut_eq_some {delimiter : UInt8} {bytes text rest : List UInt8}
    (h : cut delimiter bytes = some (text, rest)) :
    bytes = text ++ delimiter :: rest ∧ delimiter ∉ text := by
  induction bytes generalizing text with
  | nil => cases h
  | cons b bytes ih =>
      unfold cut at h
      split at h
      · rename_i found
        cases h
        exact ⟨by rw [found, List.nil_append], List.not_mem_nil⟩
      · rename_i other
        obtain ⟨⟨text', rest'⟩, later, eq⟩ := Option.map_eq_some_iff.mp h
        cases eq
        obtain ⟨rfl, free⟩ := ih later
        exact ⟨rfl, List.not_mem_cons_of_ne_of_not_mem (Ne.symm other) free⟩

theorem cut_eq_none {delimiter : UInt8} {bytes : List UInt8} (h : cut delimiter bytes = none) :
    delimiter ∉ bytes := by
  induction bytes with
  | nil => exact List.not_mem_nil
  | cons b bytes ih =>
      unfold cut at h
      split at h
      · cases h
      · rename_i other
        exact List.not_mem_cons_of_ne_of_not_mem (Ne.symm other) (ih (Option.map_eq_none_iff.mp h))

theorem length_cut {delimiter : UInt8} {bytes text rest : List UInt8}
    (h : cut delimiter bytes = some (text, rest)) : rest.length < bytes.length := by
  rw [(cut_eq_some h).1, List.length_append, List.length_cons]
  omega

/-- The bytes up to the next `=` are a tag text and those up to the next `SOH` its value,
until the input ends or the text is that of CheckSum. -/
def tokenize (bytes : List UInt8) : List RawField :=
  match _found : cut equals bytes with
  | none => []
  | some (text, rest) =>
      if text = ascii "10" then []
      else
        match _ended : cut soh rest with
        | none => []
        | some (value, rest') => ⟨text, value⟩ :: tokenize rest'
termination_by bytes.length
decreasing_by exact Nat.lt_trans (length_cut _ended) (length_cut _found)

/-- What is left of a message behind its tokens: no complete field, or the checksum. -/
inductive Ends : List UInt8 → Prop
  | text {text : List UInt8} (free : equals ∉ text) : Ends text
  | value {text value : List UInt8} (free : equals ∉ text) (unended : soh ∉ value) :
      Ends (text ++ equals :: value)
  | checkSum {value : List UInt8} (free : soh ∉ value) (rest : List UInt8) :
      Ends (RawField.wire ⟨ascii "10", value⟩ ++ rest)

theorem text_of_checkSum {f : RawField} (last : f.tag = .checkSum) : f.text = ascii "10" := by
  have known : stoft f.text = some .checkSum := by
    unfold RawField.tag at last
    cases found : stoft f.text with
    | none =>
        rw [found] at last
        cases last
    | some t =>
        rw [found] at last
        exact congrArg some last
  exact (ftof_of_stoft known).symm

theorem tokenize_split (bytes : List UInt8) :
    ∃ rest, bytes = wireAll (tokenize bytes) ++ rest ∧ Ends rest ∧
      ∀ f ∈ tokenize bytes, f.Delimited ∧ f.tag ≠ .checkSum := by
  fun_induction tokenize bytes with
  | case1 bytes none_left => exact ⟨bytes, rfl, .text (cut_eq_none none_left), by simp⟩
  | case2 bytes rest found =>
      obtain ⟨rfl, free⟩ := cut_eq_some found
      refine ⟨ascii "10" ++ equals :: rest, rfl, ?_, by simp⟩
      cases ended : cut soh rest with
      | none => exact .value free (cut_eq_none ended)
      | some parts =>
          obtain ⟨rfl, unended⟩ := cut_eq_some ended
          have wire : ascii "10" ++ equals :: (parts.1 ++ soh :: parts.2) =
              RawField.wire ⟨ascii "10", parts.1⟩ ++ parts.2 := by
            simp only [RawField.wire, List.append_assoc, List.cons_append, List.nil_append]
          rw [wire]
          exact .checkSum unended parts.2
  | case3 bytes text rest found other none_left =>
      obtain ⟨rfl, free⟩ := cut_eq_some found
      exact ⟨text ++ equals :: rest, rfl, .value free (cut_eq_none none_left), by simp⟩
  | case4 bytes text rest found other value rest' ended ih =>
      obtain ⟨rfl, free⟩ := cut_eq_some found
      obtain ⟨rfl, unended⟩ := cut_eq_some ended
      obtain ⟨tail, split, ends, fields⟩ := ih
      refine ⟨tail, ?_, ends, ?_⟩
      · conv_lhs => rw [split]
        simp [RawField.wire]
      · intro f hf
        rcases List.mem_cons.mp hf with rfl | hf
        · exact ⟨⟨free, unended⟩, fun last => other (text_of_checkSum last)⟩
        · exact fields f hf

end Tokens

section Numbers

namespace RawField

/-- What `parseInt` makes of the value, in front of its delimiter. -/
def parsed (f : RawField) : Except ParseFault Int :=
  parseInt (f.value ++ [soh]) 0 f.value.length

/-- What it would make of it over unbounded integers. -/
def number (f : RawField) : Int := numberOf f.value

theorem parseInt_value (f : RawField) (pre post : List UInt8) :
    parseInt (pre ++ (f.value ++ soh :: post)) pre.length (pre.length + f.value.length) =
      f.parsed := by
  have moved := parseInt_append_right pre (f.value ++ soh :: post) 0 f.value.length
  rw [Nat.add_zero] at moved
  rw [moved, parsed]
  refine parseInt_congr fun i _ inside => ?_
  have whole : f.value ++ soh :: post = f.value ++ [soh] ++ post := by simp
  rw [whole]
  refine byteAt_append_left ?_
  rw [List.length_append, List.length_singleton]
  omega

theorem parsed_eq {f : RawField} {v : Int} (h : f.parsed = .ok v) : v = f.number := by
  have text := bytesFrom_append [] f.value [soh]
  rw [List.nil_append, List.length_nil] at text
  unfold parsed at h
  rw [← Nat.zero_add f.value.length] at h
  obtain ⟨-, read⟩ := parseInt_ok_inv h
  rw [read, text, number]

end RawField
end Numbers

end FastLittleMarket.Fix
