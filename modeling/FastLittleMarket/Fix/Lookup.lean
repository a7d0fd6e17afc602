import FastLittleMarket.Fix.Header

/-!
What a parsed message says about its fields: the field of a tag is the last one of
that tag, and its value is read where the field stands, as far as 16 bits reach.
-/

namespace FastLittleMarket.Fix

/-- The fields with the positions at which they start. -/
def spots : Nat → List RawField → List (Nat × RawField)
  | _, [] => []
  | start, f :: fs => (start, f) :: spots (start + f.wire.length) fs

def span (p : Nat × RawField) : Nat × Nat := ((p.2.token p.1).offset, p.2.value.length)

theorem places_eq (fs : List RawField) (start : Nat) :
    places start fs =
      (spots start fs).map fun p => Field.plain p.2.tag (span p).1 (span p).2 := by
  induction fs generalizing start with
  | nil => rfl
  | cons f fs ih => simp only [places, spots, List.map_cons, ih, span]

theorem map_spots (fs : List RawField) (start : Nat) : (spots start fs).map Prod.snd = fs := by
  induction fs generalizing start with
  | nil => rfl
  | cons f fs ih => simp only [spots, List.map_cons, ih]

theorem wireAll_append (fs gs : List RawField) : wireAll (fs ++ gs) = wireAll fs ++ wireAll gs :=
  List.flatMap_append

theorem spots_append (fs gs : List RawField) (start : Nat) :
    spots start (fs ++ gs) = spots start fs ++ spots (start + (wireAll fs).length) gs := by
  induction fs generalizing start with
  | nil => rfl
  | cons f fs ih =>
      rw [List.cons_append, spots, ih, spots, wireAll_cons, List.length_append, Nat.add_assoc]
      rfl

theorem places_append (fs gs : List RawField) (start : Nat) :
    places start (fs ++ gs) = places start fs ++ places (start + (wireAll fs).length) gs := by
  simp only [places_eq, spots_append, List.map_append]

theorem spots_concat (fs : List RawField) (f : RawField) (start : Nat) :
    spots start (fs ++ [f]) = spots start fs ++ [(start + (wireAll fs).length, f)] :=
  spots_append fs [f] start

theorem mem_spots {fs : List RawField} {start : Nat} {p : Nat × RawField}
    (h : p ∈ spots start fs) :
    ∃ pre post, wireAll fs = pre ++ (p.2.wire ++ post) ∧ p.1 = start + pre.length := by
  induction fs generalizing start with
  | nil => exact absurd h List.not_mem_nil
  | cons f fs ih =>
      rcases List.mem_cons.mp h with rfl | later
      · exact ⟨[], wireAll fs, rfl, rfl⟩
      · obtain ⟨pre, post, split, place⟩ := ih later
        refine ⟨f.wire ++ pre, post, ?_, ?_⟩
        · rw [wireAll_cons, split, List.append_assoc]
        · rw [place, List.length_append, Nat.add_assoc]

def lastSpot (tag : FieldTag) (fs : List RawField) : Option (Nat × RawField) :=
  KeyedList.lastOf (fun p : Nat × RawField => p.2.tag) tag (spots 0 fs)

theorem lastSpot_snd (tag : FieldTag) (fs : List RawField) :
    (lastSpot tag fs).map Prod.snd = KeyedList.lastOf RawField.tag tag fs := by
  have mapped := KeyedList.lastOf_map RawField.tag Prod.snd tag (spots 0 fs)
  rw [map_spots] at mapped
  exact mapped.symm

variable {maxMessageSize : Nat} {fs : List RawField} {l : FieldList}

/-- Tag, offset and length as a field keeps them. -/
def Field.place (f : Field) : FieldTag × UInt16 × UInt16 := (f.tag, f.offset, f.length)

theorem Field.place_eq {f : Field} {tag : FieldTag} {offset length : UInt16} :
    f.place = (tag, offset, length) ↔ f.tag = tag ∧ f.offset = offset ∧ f.length = length := by
  simp [Field.place]

/-- The place of a value in the message, cut to 16 bits. -/
def cutPlace (p : Nat × RawField) : FieldTag × UInt16 × UInt16 :=
  (p.2.tag, UInt16.ofNat (span p).1, UInt16.ofNat (span p).2)

theorem find_places {xs : List Field} {ps : List (Nat × RawField)}
    (stored : KeyedList.putAll Field.takeOverMerge KeyedList.empty xs = some l)
    (same : xs.map Field.place = ps.map cutPlace) (tag : FieldTag) :
    (l.find tag).map Field.place =
      (KeyedList.lastOf (fun p : Nat × RawField => p.2.tag) tag ps).map cutPlace := by
  have kept : ∀ y x : Field, (Field.takeOverMerge.merge y x).place = x.place := by
    intro y x
    simp only [Field.takeOverMerge, Field.takeOver, Field.place]
    split <;> rfl
  have nothing : (KeyedList.empty : FieldList).find tag = none := rfl
  have left := KeyedList.lastOf_map Prod.fst Field.place tag xs
  have right := KeyedList.lastOf_map Prod.fst cutPlace tag ps
  rw [KeyedList.find_putAll Field.place kept stored tag, nothing, Option.or_none]
  exact left.symm.trans (same ▸ right)

theorem find_storeAll (stored : storeAll fs = some l) (tag : FieldTag) :
    (l.find tag).map Field.place = (lastSpot tag fs).map cutPlace :=
  find_places stored (by rw [places_eq, List.map_map]; rfl) tag

/-- Every value starts and ends where 16 bits reach, the first field being at `start`. -/
def NearFrom (start : Nat) (fs : List RawField) : Prop :=
  ∀ p ∈ spots start fs, (span p).1 < 2 ^ 16 ∧ (span p).2 < 2 ^ 16

def Near (fs : List RawField) : Prop := NearFrom 0 fs

theorem nearFrom_append {fs gs : List RawField} {start : Nat} :
    NearFrom start (fs ++ gs) ↔
      NearFrom start fs ∧ NearFrom (start + (wireAll fs).length) gs := by
  unfold NearFrom
  rw [spots_append]
  exact List.forall_mem_append

theorem nearFrom_cons {f : RawField} {fs : List RawField} {start : Nat} :
    NearFrom start (f :: fs) ↔
      ((span (start, f)).1 < 2 ^ 16 ∧ (span (start, f)).2 < 2 ^ 16) ∧
        NearFrom (start + f.wire.length) fs := by
  unfold NearFrom
  rw [spots, List.forall_mem_cons]

theorem near_of_length (short : (wireAll fs).length < 2 ^ 16) : Near fs := by
  intro p hp
  obtain ⟨pre, post, split, place⟩ := mem_spots hp
  have size := congrArg List.length split
  rw [List.length_append, List.length_append, RawField.length_wire] at size
  simp only [span, RawField.token]
  omega

theorem span_final (fs : List RawField) (f : RawField) :
    (wireAll (fs ++ [f])).length = (span (0 + (wireAll fs).length, f)).1 +
      (span (0 + (wireAll fs).length, f)).2 + 1 := by
  rw [wireAll_append, List.length_append, wireAll_cons, wireAll_nil, List.append_nil,
    RawField.length_wire]
  simp only [span, RawField.token]
  omega

theorem near_of_final {fs : List RawField} {f : RawField}
    (near : (span (0 + (wireAll fs).length, f)).1 < 2 ^ 16 ∧
      (span (0 + (wireAll fs).length, f)).2 < 2 ^ 16) : Near (fs ++ [f]) := by
  have short : (wireAll fs).length < 2 ^ 16 := by
    have offset := near.1
    simp only [span, RawField.token] at offset
    omega
  intro p hp
  rw [spots_concat] at hp
  rcases List.mem_append.mp hp with front | last
  · exact near_of_length short p front
  · obtain rfl := List.mem_singleton.mp last
    exact near

/-- A field map that knows the place of every last field keeps all values near. -/
theorem near_of_places {fs : List RawField} (stored : FieldTag → Option (UInt16 × UInt16))
    (same : ∀ tag, (stored tag).map (fun s => (s.1.toNat, s.2.toNat)) =
      (lastSpot tag fs).map span) : Near fs := by
  rcases List.eq_nil_or_concat fs with rfl | ⟨fs, f, rfl⟩
  · intro p hp
    exact absurd hp List.not_mem_nil
  · rw [List.concat_eq_append] at same ⊢
    apply near_of_final
    have last : lastSpot f.tag (fs ++ [f]) = some (0 + (wireAll fs).length, f) := by
      unfold lastSpot
      rw [spots_concat]
      exact KeyedList.lastOf_concat _ (0 + (wireAll fs).length, f) _
    have found := same f.tag
    rw [last, Option.map_some, Option.map_eq_some_iff] at found
    obtain ⟨s, -, eq⟩ := found
    rw [← eq]
    exact ⟨s.1.toNat_lt, s.2.toNat_lt⟩

/-- Values near enough make a message of less than six digits' length. -/
theorem length_of_near {fs : List RawField} (near : Near fs) : (wireAll fs).length < 10 ^ 6 := by
  rcases List.eq_nil_or_concat fs with rfl | ⟨fs, f, rfl⟩
  · decide
  · rw [List.concat_eq_append] at near ⊢
    have final := near (0 + (wireAll fs).length, f) (by rw [spots_concat]; simp)
    rw [span_final]
    omega

theorem find_near (stored : storeAll fs = some l) (near : Near fs) (tag : FieldTag) :
    (l.find tag).map (fun f => (f.offset.toNat, f.length.toNat)) =
      (lastSpot tag fs).map span := by
  have found := find_storeAll stored tag
  cases last : lastSpot tag fs with
  | none =>
      rw [last, Option.map_none, Option.map_eq_none_iff] at found
      rw [found]
      rfl
  | some p =>
      rw [last, Option.map_some, Option.map_eq_some_iff] at found
      obtain ⟨f, hf, same⟩ := found
      obtain ⟨-, offset, length⟩ := Field.place_eq.mp same
      have inside := near p (KeyedList.mem_of_lastOf last).1
      rw [hf, Option.map_some, Option.map_some, offset, length, UInt16.toNat_ofNat',
        UInt16.toNat_ofNat', Nat.mod_eq_of_lt inside.1, Nat.mod_eq_of_lt inside.2]

/-- The field stands in the message at a place that 16 bits can tell. -/
structure Legible (bytes : List UInt8) (p : Nat × RawField) : Prop where
  near : (span p).1 < 2 ^ 16 ∧ (span p).2 < 2 ^ 16
  stands : ∃ pre post, bytes = pre ++ (p.2.wire ++ post) ∧ p.1 = pre.length

theorem legible_of_near (near : Near fs) (z : List UInt8) :
    ∀ p ∈ spots 0 fs, Legible (wireAll fs ++ z) p := by
  intro p hp
  obtain ⟨pre, post, split, place⟩ := mem_spots hp
  refine ⟨near p hp, pre, post ++ z, ?_, by rw [place, Nat.zero_add]⟩
  rw [split]
  simp

theorem Legible.slice {bytes : List UInt8} {p : Nat × RawField} (legible : Legible bytes p)
    {f : Field} (same : f.place = cutPlace p) (a : Arena maxMessageSize) :
    FixMessage.slice ⟨bytes, a⟩ f = p.2.value := by
  obtain ⟨⟨near, short⟩, pre, post, split, place⟩ := legible
  obtain ⟨-, offset, length⟩ := Field.place_eq.mp same
  have front : bytes = (pre ++ p.2.text ++ [equals]) ++ (p.2.value ++ (soh :: post)) := by
    rw [split]
    simp [RawField.wire]
  have start : (span p).1 = (pre ++ p.2.text ++ [equals]).length := by
    simp only [span, RawField.token, place, List.length_append, List.length_singleton]
  rw [FixMessage.slice, offset, length, UInt16.toNat_ofNat', UInt16.toNat_ofNat',
    Nat.mod_eq_of_lt near, Nat.mod_eq_of_lt short, start, front]
  exact bytesFrom_append _ _ _

theorem getString_places {bytes : List UInt8} (a : Arena maxMessageSize) (id : Nat)
    {xs : List Field} {ps : List (Nat × RawField)}
    (stored : KeyedList.putAll Field.takeOverMerge KeyedList.empty xs = some l)
    (same : xs.map Field.place = ps.map cutPlace) (legible : ∀ p ∈ ps, Legible bytes p)
    (tag : FieldTag) (get : a.get id tag = .ok (l.find tag)) :
    FixMessage.getString ⟨bytes, a⟩ id tag =
      .ok ((KeyedList.lastOf RawField.tag tag (ps.map Prod.snd)).map RawField.value) := by
  have found := find_places stored same tag
  have mapped := KeyedList.lastOf_map RawField.tag Prod.snd tag ps
  simp only [FixMessage.getString, get, bind, Except.bind]
  rw [mapped]
  change _ = Except.ok (((KeyedList.lastOf (fun p : Nat × RawField => p.2.tag) tag ps).map
    Prod.snd).map RawField.value)
  cases last : KeyedList.lastOf (fun p : Nat × RawField => p.2.tag) tag ps with
  | none =>
      rw [last, Option.map_none, Option.map_eq_none_iff] at found
      rw [found]
      rfl
  | some p =>
      rw [last, Option.map_some, Option.map_eq_some_iff] at found
      obtain ⟨f, hf, place⟩ := found
      rw [hf]
      simp only [(legible p (KeyedList.mem_of_lastOf last).1).slice place]
      rfl

theorem getString_stored (stored : storeAll fs = some l) (near : Near fs)
    (buf : MessageBuffer maxMessageSize) (z : List UInt8) (tag : FieldTag) :
    FixMessage.getString ⟨wireAll fs ++ z, .single buf l⟩ FixMessage.root tag =
      .ok ((KeyedList.lastOf RawField.tag tag fs).map RawField.value) := by
  have read := getString_places (.single buf l) FixMessage.root stored
    (by rw [places_eq, List.map_map]; rfl) (legible_of_near near z) tag rfl
  rwa [map_spots] at read

end FastLittleMarket.Fix
