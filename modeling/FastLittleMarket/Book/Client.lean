import FastLittleMarket.Book.Order

/-!
The client name of an order and the view it is copied from.

The constructor copies from the data pointer of the view and never looks at its
size, so the name is the text of the view just when the copy stops inside it: the
view has seven bytes, a zero among its bytes, or a zero right behind them.
-/

namespace FastLittleMarket

def StringView.content (view : StringView) : List UInt8 :=
  (List.range view.size).map view.data

/-- A view into a buffer; what lies outside the buffer reads as `outside`. -/
def StringView.into (buffer : List UInt8) (outside : UInt8) (offset size : Nat) : StringView where
  data i := buffer.getD (offset + i) outside
  size := size

namespace Order

/-- The text up to its first zero, cut to seven bytes and padded with zeros. -/
def clientText (text : List UInt8) : Vector UInt8 8 :=
  Vector.ofFn fun i => ((text.takeWhile (· != 0)).take 7).getD i.val 0

/-- The copy from a view ends before the memory behind it matters. -/
def CopyEnds (view : StringView) : Prop :=
  7 ≤ view.size ∨ (∃ i < view.size, view.data i = 0) ∨ view.data view.size = 0

theorem takeWhile_getD {text : List UInt8} (i : Nat) :
    (text.takeWhile (· != 0)).getD i 0 =
      if i < text.length ∧ ∀ j ≤ i, text.getD j 0 ≠ 0 then text.getD i 0 else 0 := by
  induction text generalizing i with
  | nil => simp
  | cons c text ih =>
      by_cases zero : c = 0
      · have stops : ¬ (i < (c :: text).length ∧ ∀ j ≤ i, (c :: text).getD j 0 ≠ 0) :=
          fun h => h.2 0 (Nat.zero_le _) zero
        rw [if_neg stops]
        simp [zero]
      · rw [List.takeWhile_cons_of_pos (by simpa using zero)]
        cases i with
        | zero => simp [zero]
        | succ i =>
            have behind : (∀ j ≤ i + 1, (c :: text).getD j 0 ≠ 0) ↔
                ∀ j ≤ i, text.getD j 0 ≠ 0 := by
              constructor
              · exact fun h j hj => h (j + 1) (Nat.succ_le_succ hj)
              · intro h j hj
                cases j with
                | zero => exact zero
                | succ j => exact h j (Nat.le_of_succ_le_succ hj)
            simp only [List.getD_cons_succ, ih, behind, List.length_cons,
              Nat.add_lt_add_iff_right]

theorem content_getD (view : StringView) {i : Nat} (inside : i < view.size) :
    view.content.getD i 0 = view.data i := by
  simp [StringView.content, inside]

theorem clientText_get (view : StringView) {i : Nat} (hi : i < 8) :
    (clientText view.content)[i] =
      if i < 7 ∧ i < view.size ∧ ∀ j ≤ i, view.data j ≠ 0 then view.data i else 0 := by
  have length : view.content.length = view.size := by simp [StringView.content]
  have cut : ((view.content.takeWhile (· != 0)).take 7).getD i 0 =
      if i < 7 then (view.content.takeWhile (· != 0)).getD i 0 else 0 := by
    split
    · rename_i low
      simp [List.getD_eq_getElem?_getD, List.getElem?_take_of_lt low]
    · rename_i high
      simp [List.getD_eq_getElem?_getD, high]
  simp only [clientText, Vector.getElem_ofFn, cut, takeWhile_getD, length]
  by_cases low : i < 7
  · by_cases inside : i < view.size
    · have bytes : (∀ j ≤ i, view.content.getD j 0 ≠ 0) ↔ ∀ j ≤ i, view.data j ≠ 0 :=
        forall₂_congr fun j hj => by rw [content_getD view (Nat.lt_of_le_of_lt hj inside)]
      simp only [low, inside, bytes, content_getD view inside, true_and, ite_true]
    · simp [inside]
  · simp [low]

theorem copyClient_eq_clientText_iff (view : StringView) :
    copyClient view = clientText view.content ↔ CopyEnds view := by
  constructor
  · intro same
    by_contra runs
    simp only [CopyEnds, not_or, not_le, not_exists, not_and] at runs
    obtain ⟨short, inside, behind⟩ := runs
    have all : ∀ j ≤ view.size, view.data j ≠ 0 := by
      intro j hj
      rcases Nat.lt_or_eq_of_le hj with hj | rfl
      · exact inside j hj
      · exact behind
    have inArray : view.size < 8 := by omega
    have at_end : (copyClient view)[view.size] = (clientText view.content)[view.size] := by
      rw [same]
    rw [copyClient_get view inArray, clientText_get view inArray, if_pos ⟨short, all⟩,
      if_neg fun h => Nat.lt_irrefl _ h.2.1] at at_end
    exact behind at_end
  · intro ends
    apply Vector.ext
    intro i hi
    rw [copyClient_get view hi, clientText_get view hi]
    by_cases copied : i < 7 ∧ ∀ j ≤ i, view.data j ≠ 0
    · have inside : i < view.size := by
        rcases ends with long | ⟨j, hj, zero⟩ | behind
        · omega
        · by_contra beyond
          exact copied.2 j (by omega) zero
        · by_contra beyond
          exact copied.2 view.size (by omega) behind
      rw [if_pos copied, if_pos ⟨copied.1, inside, copied.2⟩]
    · rw [if_neg copied, if_neg fun h => copied ⟨h.1, h.2.2⟩]

/-- Orders built from two views of one content, with otherwise equal arguments, have
the text of the content as client and are equally valid, exactly when the copy ends
in time for each of the two. -/
theorem client_of_content_iff (id : Int32) (priceQ4 vol : UInt32) (isBuy : Bool)
    (sequencer : GlobalSequencer) (unset : UnsetFlags) {v w : StringView}
    (equal : v.content = w.content) :
    ((new id priceQ4 vol isBuy v sequencer unset).1.client =
        (new id priceQ4 vol isBuy w sequencer unset).1.client ∧
      (new id priceQ4 vol isBuy v sequencer unset).1.isValid =
        (new id priceQ4 vol isBuy w sequencer unset).1.isValid ∧
      (new id priceQ4 vol isBuy v sequencer unset).1.client = clientText v.content) ↔
      CopyEnds v ∧ CopyEnds w := by
  have client : ∀ view : StringView,
      (new id priceQ4 vol isBuy view sequencer unset).1.client = copyClient view := fun _ => rfl
  rw [← copyClient_eq_clientText_iff, ← copyClient_eq_clientText_iff, client, client]
  constructor
  · rintro ⟨same, -, text⟩
    exact ⟨text, by rw [← same, text, equal]⟩
  · rintro ⟨text, text'⟩
    have same : copyClient v = copyClient w := by rw [text, text', equal]
    refine ⟨same, ?_, text⟩
    simp only [isValid, client, same]
    rfl

theorem client_of_content_iff_literal :
    let literal := StringView.into [65, 66, 0] 7 0 2
    let padded := StringView.into [65, 66, 0, 9] 7 0 2
    (new 1 100 5 true literal ⟨0, 0⟩ ⟨0, 0⟩).1.client =
        (new 1 100 5 true padded ⟨0, 0⟩ ⟨0, 0⟩).1.client ∧
      (new 1 100 5 true literal ⟨0, 0⟩ ⟨0, 0⟩).1.client = #v[65, 66, 0, 0, 0, 0, 0, 0] := by
  intro literal padded
  have iff := client_of_content_iff 1 100 5 true ⟨0, 0⟩ ⟨0, 0⟩
    (v := literal) (w := padded) (by decide)
  obtain ⟨same, -, text⟩ := iff.mpr ⟨.inr (.inr (by decide)), .inr (.inr (by decide))⟩
  exact ⟨same, text.trans (by decide +kernel)⟩

/-- "AB" as a field value, and the same two letters as a literal: the client copied
from the field goes on with the delimiter and the next field. -/
theorem client_runs_into_next_field :
    let message : List UInt8 := [52, 57, 61, 65, 66, 1, 53, 54, 61, 67, 1]
    let field := StringView.into message 0 3 2
    let literal := StringView.into [65, 66, 0] 0 0 2
    field.content = literal.content ∧
      (new 1 100 5 true field ⟨0, 0⟩ ⟨0, 0⟩).1.client = #v[65, 66, 1, 53, 54, 61, 67, 0] ∧
      (new 1 100 5 true literal ⟨0, 0⟩ ⟨0, 0⟩).1.client = #v[65, 66, 0, 0, 0, 0, 0, 0] := by
  decide +kernel

end Order

end FastLittleMarket
