import FastLittleMarket.Fix.Limits

/-!
Declared counts against the groups of a parse. A field's groups and its number can only
come apart in a round that stores the field: an end tag opens a group below a field while
there are fewer than its number, and no round takes a group away.
-/

namespace FastLittleMarket.Fix

variable {maxMessageSize : Nat} {input : List UInt8} {msg msg' : FixMessage maxMessageSize}
  {defs : GroupDefs} {st st' : ParseState maxMessageSize} {F F' : Forest} {j k m : Nat}
  {f : RawField} {rest z : List UInt8} {a : Arena maxMessageSize} {tag : FieldTag}

/-- The number of groups of a field, none of a field that is not there. -/
def Arena.attached (a : Arena maxMessageSize) (m : Nat) (tag : FieldTag) : Nat :=
  match a.get m tag with
  | .ok (some field) =>
      match a.groupCount field with
      | .ok count => count
      | .error _ => 0
  | _ => 0

def ParseState.Counts (defs : GroupDefs) (st : ParseState maxMessageSize) (f : RawField) : Prop :=
  ∃ gd, concerned (inForce defs f st.msgGroups) f.tag = some gd ∧ gd.groupCountTag = f.tag

theorem ParseState.Counts.opens (h : st.Counts defs f) : st.Opens defs f := by
  obtain ⟨gd, found, counts⟩ := h
  exact .first found counts

/-- The number of the next field covers the groups that its map has of its tag, with the one
that is opened at once if the field is a count field in force. -/
structure ParseState.Covers (defs : GroupDefs) (st : ParseState maxMessageSize)
    (input : List UInt8) (m : Nat) (f : RawField) : Prop where
  held : (st.arena.attached m f.tag : Int) ≤ max 0 (st.number input f)
  opened : ∀ rest, st.Proceeds input m f rest → st.Counts defs f →
    Arena.RoomFor maxMessageSize (st.arena.maps.length + 1) →
    (st.arena.attached m f.tag : Int) + 1 ≤ max 0 (st.number input f)

theorem Arena.Shows.attached_eq (h : a.Shows F) (m : Nat) (tag : FieldTag) :
    a.attached m tag = (F.groups m tag).length := by
  unfold attached
  cases cell : a.cells m with
  | none =>
      have outside : F.size ≤ m := by
        by_contra inside
        obtain ⟨fm, cell'⟩ := h.exists_cell (Nat.lt_of_not_le inside)
        rw [cell] at cell'
        cases cell'
      rw [Heap.get_null cell, F.groups_of_le outside]
      rfl
  | some fm =>
      have read : a.get m tag = .ok (fm.map.find tag) := Heap.get_cell cell
      rw [read]
      cases found : fm.map.find tag with
      | none =>
          rw [(h.absent cell found).2]
          rfl
      | some field =>
          rw [found] at read
          obtain ⟨-, -, count⟩ := h.get_some read
          dsimp only
          rw [count]

theorem Forest.length_groups_graft (F : Forest) (p : Nat) (t : FieldTag) (inside : p < F.size)
    (m : Nat) (tag : FieldTag) :
    ((F.graft p t inside).groups m tag).length =
      (F.groups m tag).length + if m = p ∧ tag = t then 1 else 0 := by
  simp only [Forest.graft]
  split <;> simp

/-- What a round does to the groups of the field it stores. -/
theorem covers_of_round (h : Coherent input st F) (proceeds : st.Proceeds input m f rest)
    (extends' : Extends input maxMessageSize (F.set m f.tag (placeOf st.cursor.scanned f)) m
      f.tag st.stack (inForce defs f st.msgGroups) F') (shows : st'.arena.Shows F') :
    ((st'.arena.attached m f.tag : Int) ≤ max 0 (st.number input f)) ↔
      st.Covers defs input m f := by
  have size : st.arena.maps.length = F.size := h.shows.size
  have before := h.shows.attached_eq m f.tag
  have after := shows.attached_eq m f.tag
  cases extends' with
  | same quiet =>
      have same : st'.arena.attached m f.tag = st.arena.attached m f.tag := after.trans before.symm
      rw [same]
      refine ⟨fun held => ⟨held, fun _ _ counts room => ?_⟩, fun covers => covers.held⟩
      obtain ⟨gd, found, key⟩ := counts
      exact absurd key (quiet (size ▸ room) gd found)
  | @graft p t around due inside room =>
      rw [Forest.length_groups_graft] at after
      change st'.arena.attached m f.tag = (F.groups m f.tag).length + _ at after
      rw [← before] at after
      cases due with
      | @first gd found counts =>
          rw [if_pos ⟨rfl, rfl⟩] at after
          rw [after]
          refine ⟨fun more => ⟨by omega, fun _ _ _ _ => by omega⟩, fun covers => ?_⟩
          have more := covers.opened rest proceeds ⟨gd, found, counts⟩ (size.symm ▸ room)
          omega
      | @further gd _ below place found ends top known reads fewer =>
          have other : ¬ (m = p ∧ f.tag = gd.groupCountTag) := fun here => ends here.2.symm
          rw [if_neg other, Nat.add_zero] at after
          rw [after]
          refine ⟨fun held => ⟨held, fun _ _ counts _ => ?_⟩, fun covers => covers.held⟩
          obtain ⟨gd', found', key⟩ := counts
          rw [found] at found'
          cases found'
          exact absurd key ends

theorem attached_of_round {f' : RawField} {m' : Nat} {p : UInt16 × UInt16}
    (h : Coherent input st F) (other : ¬ (m = m' ∧ f.tag = f'.tag))
    (place : F.place m f.tag = some p)
    (extends' : Extends input maxMessageSize (F.set m' f'.tag (placeOf st.cursor.scanned f')) m'
      f'.tag st.stack (inForce defs f' st.msgGroups) F') (shows : st'.arena.Shows F') :
    ((st'.arena.attached m f.tag : Int) ≤ max 0 (numberAt input p)) ↔
      ((st.arena.attached m f.tag : Int) ≤ max 0 (numberAt input p)) := by
  have before := h.shows.attached_eq m f.tag
  have after := shows.attached_eq m f.tag
  cases extends' with
  | same quiet => rw [after.trans before.symm]
  | @graft q t around due inside room =>
      rw [Forest.length_groups_graft] at after
      change st'.arena.attached m f.tag = (F.groups m f.tag).length + _ at after
      rw [← before] at after
      by_cases here : m = q ∧ f.tag = t
      · rw [if_pos here] at after
        cases due with
        | first found counts => exact absurd here other
        | @further gd _ below place' found ends top known reads fewer =>
            rw [← here.1, ← here.2] at known fewer
            have kept : (F.set m' f'.tag (placeOf st.cursor.scanned f')).place m f.tag =
                F.place m f.tag := F.place_set_of_ne _ other
            rw [kept, place] at known
            cases known
            change ((F.groups m f.tag).length : Int) < announces input f.tag p at fewer
            rw [← before] at fewer
            unfold announces at fewer
            split at fewer
            · omega
            · rw [after]
              omega
      · rw [if_neg here, Nat.add_zero] at after
        rw [after]

theorem Latest.of_lt {st₀ : ParseState maxMessageSize} {i : Nat}
    (h : Latest input msg defs i j st₀ m f) (before : j < k) (le : k ≤ i) :
    Latest input msg defs k j st₀ m f :=
  ⟨h.sends, before, fun later early sends => h.last later (Nat.lt_of_lt_of_le early le) sends⟩

/-- In every state the groups of a field are covered by its number exactly if they were when
it was stored. -/
theorem FixMessage.Visits.covered (h : FixMessage.Visits input msg defs k st)
    {st₀ : ParseState maxMessageSize} (latest : Latest input msg defs k j st₀ m f) :
    ((st.arena.attached m f.tag : Int) ≤ max 0 (st₀.number input f)) ↔
      st₀.Covers defs input m f := by
  induction k generalizing st with
  | zero => exact absurd latest.before (Nat.not_lt_zero j)
  | succ k ih =>
      obtain ⟨st₁, before, round⟩ := h.exists_last
      obtain ⟨F, coherent, -⟩ := before.coherent
      have outcome := coherent.round defs
      rw [round] at outcome
      cases outcome with
      | @next f₁ rest m₁ a _ F' proceeds stored shows step grouped extends' coherent' =>
          have sends : Sends input msg defs k st₁ m₁ f₁ :=
            ⟨before, ⟨rest, proceeds.meets⟩, proceeds.current⟩
          rcases Nat.lt_or_eq_of_le (Nat.le_of_lt_succ latest.before) with earlier | rfl
          · have latest' := latest.of_lt earlier (Nat.le_succ k)
            have other : ¬ (m = m₁ ∧ f.tag = f₁.tag) := by
              rintro ⟨rfl, same⟩
              exact latest.last earlier (Nat.lt_succ_self k) sends same.symm
            have place := (before.told coherent).place_eq latest'
            exact (attached_of_round coherent other place extends' coherent'.shows).trans
              (ih before latest')
          · obtain ⟨rfl, rfl, rfl⟩ := sends.unique latest.sends
            exact covers_of_round coherent proceeds extends' coherent'.shows

theorem covered_result (parsed : FixMessage.parse input msg defs = .ok (msg', z))
    (final : Final input msg defs j st m f) :
    ((msg'.arena.attached m f.tag : Int) ≤ max 0 (st.number input f)) ↔
      st.Covers defs input m f := by
  obtain ⟨k, stₖ, st', visits, leaves, rfl⟩ := exists_last_round parsed
  obtain ⟨F, coherent, -⟩ := visits.coherent
  have last := visits.last leaves final.sends.visits
  have outcome := coherent.round defs
  rw [leaves] at outcome
  cases outcome with
  | leaves part held unmet =>
      rcases Nat.lt_or_eq_of_le last with before | rfl
      · exact visits.covered ⟨final.sends, before, fun later _ sends => final.last later sends⟩
      · obtain rfl := visits.unique final.sends.visits
        obtain ⟨rest, meets⟩ := final.sends.meets
        exact absurd meets (unmet f rest)
  | @short f₁ rest m₁ a c meets current stored shows part held =>
      have sends : Sends input msg defs k stₖ m₁ f₁ := ⟨visits, ⟨rest, meets⟩, current⟩
      have same : a.attached m f.tag = stₖ.arena.attached m f.tag := by
        rw [shows.attached_eq, coherent.shows.attached_eq]
        rfl
      rw [same]
      rcases Nat.lt_or_eq_of_le last with before | rfl
      · exact visits.covered ⟨final.sends, before, fun later _ sends => final.last later sends⟩
      · obtain ⟨rfl, rfl, rfl⟩ := sends.unique final.sends
        refine ⟨fun held => ⟨held, fun rest' proceeds counts _ => ?_⟩, fun covers => covers.held⟩
        obtain ⟨st', round⟩ := coherent.exists_next proceeds counts.opens
        rw [leaves] at round
        cases round

/-- The groups of every field of the message are at most as many as its number says. -/
def FixMessage.Bounded (msg : FixMessage maxMessageSize) : Prop :=
  ∀ (m : Nat) (tag : FieldTag) (field : Field) (count : Nat),
    msg.arena.get m tag = .ok (some field) → msg.arena.groupCount field = .ok count →
      (count : Int) ≤ max 0 (numberAt msg.msgBytes (field.offset, field.length))

theorem bounded_iff (parsed : FixMessage.parse input msg defs = .ok (msg', z)) :
    msg'.Bounded ↔ ∀ j st m f, Final input msg defs j st m f → st.Covers defs input m f := by
  obtain ⟨k, F, shows, told, part, placed, last⟩ := exists_result parsed
  have number : ∀ {m : Nat} {tag : FieldTag} {p : UInt16 × UInt16}, F.place m tag = some p →
      numberAt msg'.msgBytes p = numberAt input p := by
    intro m tag p known
    have near := placed m tag p known
    unfold numberAt
    rw [bytesFrom_congr fun i _ high => byteAt_prefix part (by omega)]
  constructor
  · intro bounded j st m f final
    have place := told.place_eq (final.latest last)
    rw [← covered_result parsed final, shows.attached_eq]
    obtain ⟨field, found, same, -, count⟩ := shows.exists_get place
    have held := bounded m f.tag field _ found count
    rw [← same, number place] at held
    exact held
  · intro covers m tag field count found counted
    obtain ⟨known, -, count'⟩ := shows.get_some found
    rw [counted] at count'
    cases count'
    obtain ⟨j, st, f, latest, rfl, same⟩ := told.sent known
    have final := latest.final last
    have held := (covered_result parsed final).mpr (covers j st m f final)
    rw [shows.attached_eq] at held
    rw [number known, same]
    exact held

theorem Arena.exists_of_attached (some_group : 0 < a.attached m tag) :
    ∃ field, a.get m tag = .ok (some field) ∧ a.groupCount field = .ok (a.attached m tag) := by
  unfold attached at some_group ⊢
  split at some_group
  · rename_i field found
    split at some_group
    · rename_i count counted
      exact ⟨field, found, counted⟩
    · exact absurd some_group (Nat.lt_irrefl 0)
  · exact absurd some_group (Nat.lt_irrefl 0)

theorem numberAt_of_getInt {field : Field} {v : Int}
    (found : msg.arena.get m tag = .ok (some field)) (read : msg.getInt m tag = .ok (some v)) :
    numberAt msg.msgBytes (field.offset, field.length) = v := by
  unfold FixMessage.getInt Arena.getInt at read
  rw [found] at read
  cases number : parseInt msg.msgBytes field.offset.toNat
      (field.offset.toNat + field.length.toNat) with
  | error e =>
      simp only [bind, Except.bind, number] at read
      cases read
  | ok w =>
      simp only [bind, Except.bind, number] at read
      cases read
      exact (parseInt_ok_inv number).2.symm

theorem Coherent.leaves_map (h : Coherent input st F)
    (round : parseField defs st = .ok (.next st')) (meets : st.Meets f rest)
    (current : st.map = some m) (counts : st.Counts defs f) : st'.map ≠ some m := by
  obtain ⟨gd, found, key⟩ := counts
  have outcome := h.round defs
  rw [round] at outcome
  cases outcome with
  | @next f' rest' m' a _ F' proceeds stored shows step grouped extends' coherent' =>
      obtain ⟨rfl, rfl⟩ := meets.unique proceeds.meets
      obtain rfl := Option.some.inj (current.symm.trans proceeds.current)
      cases grouped with
      | stays plain => exact absurd key (plain gd found)
      | closes plain top => exact absurd key (plain gd found)
      | lost due full => exact nofun
      | grows due inside room shows' =>
          intro same
          exact Nat.lt_irrefl _ (Option.some.inj same ▸ h.current_lt current)

/-- Behind a count field in force with the number 0 the current map stays. -/
def StaysAtZero (input : List UInt8) (msg : FixMessage maxMessageSize) (defs : GroupDefs) : Prop :=
  ∀ k st st' m f rest, FixMessage.Visits input msg defs k st →
    parseField defs st = .ok (.next st') → st.Meets f rest → st.map = some m →
      st.Counts defs f → st.number input f = 0 → st'.map = some m

theorem staysAtZero_iff :
    StaysAtZero input msg defs ↔
      ∀ k st m f rest, FixMessage.Visits input msg defs k st → st.Proceeds input m f rest →
        st.Counts defs f → st.number input f ≠ 0 := by
  constructor
  · intro stays k st m f rest visits proceeds counts zero
    obtain ⟨F, coherent, -⟩ := visits.coherent
    obtain ⟨st', round⟩ := coherent.exists_next proceeds counts.opens
    exact coherent.leaves_map round proceeds.meets proceeds.current counts
      (stays k st st' m f rest visits round proceeds.meets proceeds.current counts zero)
  · intro nonzero k st st' m f rest visits round meets current counts zero
    obtain ⟨F, coherent, -⟩ := visits.coherent
    obtain ⟨m', f', rest', F', proceeds, -⟩ := coherent.advances round
    obtain ⟨rfl, rfl⟩ := meets.unique proceeds.meets
    exact absurd zero (nonzero k st m' f rest visits proceeds counts)

/-- The groups of a parsed message keep to their declared numbers, and a number 0 opens
none, exactly if the last field of each tag in each map covers the groups it finds and
opens, and no count field in force has the number 0. -/
theorem parse_bounds_groups_iff (parsed : FixMessage.parse input msg defs = .ok (msg', z)) :
    (msg'.Bounded ∧ StaysAtZero input msg defs) ↔
      (∀ j st m f, Final input msg defs j st m f → st.Covers defs input m f) ∧
        ∀ k st m f rest, FixMessage.Visits input msg defs k st → st.Proceeds input m f rest →
          st.Counts defs f → st.number input f ≠ 0 := by
  rw [bounded_iff parsed, staysAtZero_iff]

theorem bounded_of_items (items : ∀ fm ∈ msg.arena.maps, ∀ field ∈ fm.map.items,
    ∀ count ∈ (msg.arena.groupCount field).toOption,
      (count : Int) ≤ max 0 (numberAt msg.msgBytes (field.offset, field.length))) :
    msg.Bounded := by
  intro m tag field count found counted
  cases cell : msg.arena.cells m with
  | none =>
      rw [Heap.get_null cell] at found
      cases found
  | some fm =>
      have read : msg.arena.get m tag = .ok (fm.map.find tag) := Heap.get_cell cell
      rw [read] at found
      refine items fm (List.mem_of_getElem? cell) field
        (KeyedList.mem_of_find (Except.ok.inj found)) count ?_
      rw [counted]
      rfl

theorem staysAtZero_of_fields (fields : ∀ n ≤ input.length, ∀ p ∈ nextField (input.drop n),
    numberAt input (placeOf (input.take n) p.1) ≠ 0) : StaysAtZero input msg defs := by
  rw [staysAtZero_iff]
  intro k st m f rest visits proceeds _
  obtain ⟨F, coherent, -⟩ := visits.coherent
  have whole := coherent.whole
  have next := proceeds.meets.next
  have here := fields st.cursor.scanned.length (by rw [← whole, List.length_append]; omega)
    (f, rest)
  rw [← whole, List.drop_left, List.take_left, whole] at here
  exact here next

theorem parse_bounds_two_legs :
    ∃ msg' z, FixMessage.parse twoLegsStream (emptyMessage admits_2048) legDefs =
        .ok (msg', z) ∧
      msg'.arena.attached FixMessage.root .noLegs = 2 ∧
      (msg'.Bounded ∧ StaysAtZero twoLegsStream (emptyMessage admits_2048) legDefs) ∧
      (∀ j st m f, Final twoLegsStream (emptyMessage admits_2048) legDefs j st m f →
        st.Covers legDefs twoLegsStream m f) ∧
      ∀ k st m f rest,
        FixMessage.Visits twoLegsStream (emptyMessage admits_2048) legDefs k st →
          st.Proceeds twoLegsStream m f rest → st.Counts legDefs f →
            st.number twoLegsStream f ≠ 0 := by
  have seen : (FixMessage.parse twoLegsStream (emptyMessage admits_2048) legDefs).map
      (fun r => (r.1.arena.attached FixMessage.root .noLegs,
        decide (∀ fm ∈ r.1.arena.maps, ∀ field ∈ fm.map.items,
          ∀ count ∈ (r.1.arena.groupCount field).toOption,
            ((count : Nat) : Int) ≤ max 0 (numberAt r.1.msgBytes (field.offset, field.length))))) =
      .ok (2, true) := by decide +kernel
  obtain ⟨⟨msg', z⟩, parsed, seen⟩ := Loop.exists_of_map seen
  simp only [Prod.mk.injEq, decide_eq_true_eq] at seen
  obtain ⟨groups, items⟩ := seen
  have bounds : msg'.Bounded ∧
      StaysAtZero twoLegsStream (emptyMessage admits_2048) legDefs :=
    ⟨bounded_of_items items, staysAtZero_of_fields (by decide +kernel)⟩
  exact ⟨msg', z, parsed, groups, bounds, (parse_bounds_groups_iff parsed).mp bounds⟩

def noLegsStream : List UInt8 :=
  ascii "35=s" ++ soh :: (ascii "555=0" ++ soh :: (ascii "600=A" ++ [soh]))

/-- No legs are declared, one is there, and the field behind their number is in it. -/
theorem parse_opens_phantom_leg :
    ∃ msg' z, FixMessage.parse noLegsStream (emptyMessage admits_2048) legDefs =
        .ok (msg', z) ∧
      msg'.arena.attached FixMessage.root .noLegs = 1 ∧
      msg'.getInt FixMessage.root .noLegs = .ok (some 0) ∧
      msg'.arena.get FixMessage.root .legSymbol = .ok none ∧ ¬ msg'.Bounded := by
  have seen : (FixMessage.parse noLegsStream (emptyMessage admits_2048) legDefs).map
      (fun r => (r.1.arena.attached FixMessage.root .noLegs,
        r.1.getInt FixMessage.root .noLegs, r.1.arena.get FixMessage.root .legSymbol)) =
      .ok (1, .ok (some 0), .ok none) := by decide +kernel
  obtain ⟨⟨msg', z⟩, parsed, seen⟩ := Loop.exists_of_map seen
  simp only [Prod.mk.injEq] at seen
  obtain ⟨groups, number, outside⟩ := seen
  refine ⟨msg', z, parsed, groups, number, outside, fun bounded => ?_⟩
  have some_group : 0 < msg'.arena.attached FixMessage.root .noLegs := groups ▸ Nat.one_pos
  obtain ⟨field, found, count⟩ := Arena.exists_of_attached some_group
  have held := bounded _ _ field _ found count
  rw [numberAt_of_getInt found number, groups] at held
  omega

end FastLittleMarket.Fix
