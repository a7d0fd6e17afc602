import FastLittleMarket.Fix.Framing
import FastLittleMarket.Fix.Limits

/-!
The places of the stored fields. A place is exact as long as it fits 16 bits; if all are, a
field of the result is the last one sent to its map under its tag, byte for byte.
-/

namespace FastLittleMarket.Fix

open Cursor

variable {maxMessageSize : Nat} {input : List UInt8} {msg msg' : FixMessage maxMessageSize}
  {defs : GroupDefs} {st : ParseState maxMessageSize} {F : Forest} {j k m : Nat}
  {f : RawField} {z : List UInt8}

def ParseState.valueStart (st : ParseState maxMessageSize) (f : RawField) : Nat :=
  st.cursor.scanned.length + f.text.length + 1

/-- Start and length of the field are stored as they are. -/
def ParseState.StoresExactly (st : ParseState maxMessageSize) (m : Nat) (f : RawField) : Prop :=
  ∃ a field, st.arena.set m (entry st.cursor.scanned f) = .ok a ∧
    a.get m f.tag = .ok (some field) ∧ field.offset.toNat = st.valueStart f ∧
    field.length.toNat = f.value.length

theorem placeOf_exact_iff (st : ParseState maxMessageSize) (f : RawField) :
    ((placeOf st.cursor.scanned f).1.toNat = st.valueStart f ∧
        (placeOf st.cursor.scanned f).2.toNat = f.value.length) ↔
      st.valueStart f < 2 ^ 16 ∧ f.value.length < 2 ^ 16 := by
  have low : (placeOf st.cursor.scanned f).1.toNat = st.valueStart f % 2 ^ 16 :=
    UInt16.toNat_ofNat'
  have high : (placeOf st.cursor.scanned f).2.toNat = f.value.length % 2 ^ 16 :=
    UInt16.toNat_ofNat'
  rw [low, high]
  omega

theorem Coherent.storesExactly_iff (h : Coherent input st F) (takes : st.Takes m f.tag) :
    st.StoresExactly m f ↔ st.valueStart f < 2 ^ 16 ∧ f.value.length < 2 ^ 16 := by
  obtain ⟨a, stored, shows⟩ := h.exists_stored takes
  have place := F.place_set m f.tag (placeOf st.cursor.scanned f)
  obtain ⟨field, found, same, -⟩ := shows.exists_get place
  rw [← placeOf_exact_iff, same]
  constructor
  · rintro ⟨a', field', stored', found', offset, length⟩
    rw [stored] at stored'
    cases stored'
    rw [found] at found'
    cases found'
    exact ⟨offset, length⟩
  · rintro ⟨offset, length⟩
    exact ⟨a, field, stored, found, offset, length⟩

/-- The bytes of the stream at an exact place are those of the field. -/
theorem Coherent.bytes_at_place (h : Coherent input st F) {rest : List UInt8}
    (meets : st.Meets f rest) :
    bytesFrom input (st.valueStart f) f.value.length = f.value := by
  have parts : input =
      st.cursor.scanned ++ f.text ++ [equals] ++ (f.value ++ (soh :: rest)) := by
    rw [h.input_eq meets]
    simp [RawField.wire]
  have start : st.valueStart f = (st.cursor.scanned ++ f.text ++ [equals]).length := by
    simp [ParseState.valueStart, Nat.add_assoc]
  rw [start, parts, bytesFrom_append]

theorem Sends.takes (h : Sends input msg defs j st m f)
    (parsed : FixMessage.parse input msg defs = .ok (msg', z)) : st.Takes m f.tag := by
  obtain ⟨F, coherent, -⟩ := h.visits.coherent
  obtain ⟨rest, meets⟩ := h.meets
  by_contra refuses
  have failed := h.visits.parse_error (coherent.round_full meets h.current refuses)
  rw [parsed] at failed
  cases failed

theorem Final.getString (h : Final input msg defs j st m f)
    (parsed : FixMessage.parse input msg defs = .ok (msg', z))
    (fit : st.valueStart f < 2 ^ 16 ∧ f.value.length < 2 ^ 16) :
    msg'.getString m f.tag = .ok (some f.value) := by
  obtain ⟨G, coherent, -⟩ := h.sends.visits.coherent
  obtain ⟨rest, meets⟩ := h.sends.meets
  obtain ⟨offset, length⟩ := (placeOf_exact_iff st f).mpr fit
  obtain ⟨k, F, shows, told, part, placed, last⟩ := exists_result parsed
  have place := told.place_eq (h.latest last)
  obtain ⟨field, found, same, -⟩ := shows.exists_get place
  have near := placed _ _ _ place
  rw [offset, length] at near
  rw [same] at offset length
  have slice : msg'.slice field = f.value := by
    unfold FixMessage.slice
    dsimp only at offset length
    rw [offset, length, bytesFrom_congr fun i _ high => byteAt_prefix part (by omega),
      coherent.bytes_at_place meets]
  unfold FixMessage.getString
  simp only [found, bind, Except.bind, pure, Except.pure, slice]

/-- All fields are stored with their start and their length, and the result has their bytes,
exactly if all these numbers fit 16 bits. -/
theorem parse_places_iff (input : List UInt8) (msg : FixMessage maxMessageSize)
    (defs : GroupDefs) :
    ((∀ j st m f, Sends input msg defs j st m f → st.Takes m f.tag → st.StoresExactly m f) ∧
      ∀ msg' z, FixMessage.parse input msg defs = .ok (msg', z) →
        ∀ j st m f, Final input msg defs j st m f →
          msg'.getString m f.tag = .ok (some f.value)) ↔
      ∀ j st m f, Sends input msg defs j st m f → st.Takes m f.tag →
        st.valueStart f < 2 ^ 16 ∧ f.value.length < 2 ^ 16 := by
  constructor
  · rintro ⟨exact', -⟩ j st m f sends takes
    obtain ⟨F, coherent, -⟩ := sends.visits.coherent
    exact (coherent.storesExactly_iff takes).mp (exact' j st m f sends takes)
  · intro small
    refine ⟨fun j st m f sends takes => ?_, fun msg' z parsed j st m f final => ?_⟩
    · obtain ⟨F, coherent, -⟩ := sends.visits.coherent
      exact (coherent.storesExactly_iff takes).mpr (small j st m f sends takes)
    · exact final.getString parsed
        (small j st m f final.sends (final.sends.takes parsed))

theorem Coherent.fits_of_short {rest : List UInt8} (h : Coherent input st F)
    (meets : st.Meets f rest) (short : input.length ≤ 65536) :
    st.valueStart f < 2 ^ 16 ∧ f.value.length < 2 ^ 16 := by
  have size := congrArg List.length (h.input_eq meets)
  have wire := f.length_wire
  rw [List.length_append, List.length_append] at size
  unfold ParseState.valueStart
  omega

/-- In a stream of at most 65536 bytes they do. -/
theorem Sends.fits_of_short (h : Sends input msg defs j st m f) (short : input.length ≤ 65536) :
    st.valueStart f < 2 ^ 16 ∧ f.value.length < 2 ^ 16 := by
  obtain ⟨F, coherent, -⟩ := h.visits.coherent
  obtain ⟨rest, meets⟩ := h.meets
  exact coherent.fits_of_short meets short

section Examples

def farText (v : List UInt8) : RawField := ⟨ascii "58", v⟩

def farID : RawField := ⟨ascii "11", ascii "B"⟩

def farStream (v : List UInt8) : List UInt8 := wireAll [farText v, farID]

theorem tag_farID : farID.tag = .clOrdID := by decide +kernel

theorem storable_far {v : List UInt8} (free : soh ∉ v) :
    ∀ f ∈ [farText v, farID], Storable GroupDefs.empty f := by
  have known : stoft (ascii "58") = some .text := by decide +kernel
  have text : (farText v).tag = .text := by
    simp [RawField.tag, farText, known]
  intro f hf
  rcases List.mem_pair.mp hf with rfl | rfl
  · exact ⟨⟨show equals ∉ ascii "58" by decide, free⟩,
      by rw [text]; decide, by rw [text]; decide, fun _ => rfl⟩
  · exact ⟨⟨by decide, by decide⟩, by rw [tag_farID]; decide, by rw [tag_farID]; decide,
      fun _ => rfl⟩

theorem length_farStream (v : List UInt8) : (farStream v).length = v.length + 9 := by
  have id : farID.wire.length = 5 := rfl
  have text : (farText v).wire.length = v.length + 4 := by
    rw [RawField.length_wire]
    change 2 + v.length + 2 = _
    omega
  unfold farStream
  rw [wireAll_cons, wireAll_cons, wireAll_nil, List.append_nil, List.length_append, text, id]

theorem parse_far {v : List UInt8} (free : soh ∉ v) (size : v.length = 65533) :
    ∃ msg' z field, FixMessage.parse (farStream v) (emptyMessage Framed.admits_70000)
        GroupDefs.empty = .ok (msg', z) ∧
      msg'.arena.get FixMessage.root .clOrdID = .ok (some field) ∧ field.offset = 4 ∧
      msg'.getString FixMessage.root .clOrdID = .ok (some (bytesFrom (farStream v) 4 1)) := by
  have whole := length_farStream v
  obtain ⟨l, stored⟩ : ∃ l, storeAll [farText v, farID] = some l := by
    rw [exists_storeAll]
    exact Nat.le_trans (List.dedup_sublist _).length_le (show 2 ≤ 64 by decide)
  have fits : (farStream v).length ≤ 70000 := by omega
  obtain ⟨buf, parsed⟩ :=
    parse_wireAll (storable_far free) fits stored (emptyMessage Framed.admits_70000)
  have place := KeyedList.find_putAll (fun x : Field => (x.offset, x.length))
    Field.place_takeOver stored .clOrdID
  have last : KeyedList.lastOf Field.tag .clOrdID (places 0 [farText v, farID]) =
      some (Field.plain farID.tag (farID.token (0 + (farText v).wire.length)).offset
        farID.value.length) := by
    rw [← tag_farID]
    exact KeyedList.lastOf_concat Field.tag (Field.plain farID.tag _ farID.value.length)
      [Field.plain (farText v).tag _ _]
  have start : (farID.token (0 + (farText v).wire.length)).offset = 65540 := by
    rw [RawField.length_wire]
    change 0 + (2 + v.length + 2) + 2 + 1 = _
    omega
  rw [last, start] at place
  obtain ⟨field, found, same⟩ := Option.map_eq_some_iff.mp place
  have offset : field.offset = 4 := congrArg Prod.fst same
  have length : field.length = 1 := congrArg Prod.snd same
  have got : (Heap.single buf l).get FixMessage.root .clOrdID = .ok (some field) := by
    change Except.ok (l.find .clOrdID) = _
    rw [found]
  refine ⟨_, _, field, parsed, got, offset, ?_⟩
  unfold FixMessage.getString FixMessage.slice
  simp only [got, bind, Except.bind, offset, length]
  rfl

/-- In a message of 70000 bytes the field is stored with the start 4, where another byte
stands. -/
theorem parse_wraps_offset :
    (farStream (List.replicate 65533 65)).length ≤ 70000 ∧
      ∃ msg' z field, FixMessage.parse (farStream (List.replicate 65533 65))
          (emptyMessage Framed.admits_70000) GroupDefs.empty = .ok (msg', z) ∧
        msg'.arena.get FixMessage.root .clOrdID = .ok (some field) ∧ field.offset = 4 ∧
        msg'.getString FixMessage.root .clOrdID = .ok (some (ascii "A")) := by
  have free : soh ∉ List.replicate 65533 (65 : UInt8) := fun inside =>
    absurd (List.eq_of_mem_replicate inside) (by decide)
  obtain ⟨msg', z, field, parsed, found, offset, read⟩ := parse_far free List.length_replicate
  have byte : ∀ v : List UInt8, v[1]? = some 65 → bytesFrom (farStream v) 4 1 = ascii "A" := by
    intro v second
    obtain _ | ⟨a, _ | ⟨b, v⟩⟩ := v
    · cases second
    · cases second
    · cases second
      rfl
  rw [byte _ (List.getElem?_replicate_of_lt (by decide))] at read
  refine ⟨?_, msg', z, field, parsed, found, offset, read⟩
  rw [length_farStream, List.length_replicate]
  omega

end Examples

end FastLittleMarket.Fix
