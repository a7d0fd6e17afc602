import Mathlib.Data.Nat.Find
import FastLittleMarket.Fix.History

/-!
What a parse may ask of its message: bytes, field maps and field slots. For each of them
the parser keeps within the limit exactly under a condition on the states it goes through.
-/

namespace FastLittleMarket.Fix

open Cursor

variable {maxMessageSize : Nat} {input : List UInt8} {msg : FixMessage maxMessageSize}
  {defs : GroupDefs} {st st' : ParseState maxMessageSize} {F : Forest} {k m : Nat}
  {f : RawField} {rest : List UInt8}

theorem ParseFault.Numeric.ne {e e' : ParseFault} (h : e.Numeric)
    (other : e' ≠ .intOverflow ∧ e' ≠ .outOfRange) : e ≠ e' := by
  rintro rfl
  rcases h with same | same
  · exact other.1 same
  · exact other.2 same

theorem Grouped.numeric {c : Cursor} {a : Arena maxMessageSize} {tag : FieldTag}
    {stack : List Nat} {groups : Option (List GroupDef)} {e : ParseFault}
    (h : Grouped input c a F m tag stack groups (.error e)) : e.Numeric := by
  cases h with
  | unread found ends top known unreadable numeric => exact numeric

section Bytes

/-- The next field, or the rest of the stream without one, ends within the message; so does
the bulk read behind it, which a BodyLength asks for. -/
structure ParseState.Roomy (st : ParseState maxMessageSize) (input : List UInt8) : Prop where
  scan : st.cursor.scanned.length + demand st.pending ≤ maxMessageSize
  bulk : ∀ {f : RawField} {rest : List UInt8} {m : Nat}, st.Meets f rest → st.map = some m →
    st.Takes m f.tag → (f.tag = .bodyLength → st.Measured input f) → st.Within input f rest

/-- The parser stays within the message exactly if every round does. -/
theorem parse_within_iff (input : List UInt8) (msg : FixMessage maxMessageSize)
    (defs : GroupDefs) :
    FixMessage.parse input msg defs ≠ .error .bufferOverflow ↔
      ∀ k st, FixMessage.Visits input msg defs k st → st.Roomy input := by
  constructor
  · intro within k st visits
    obtain ⟨F, coherent, -⟩ := visits.coherent
    refine ⟨?_, fun {f rest m} meets current takes measured => ?_⟩
    · by_contra excess
      exact within (visits.parse_error (coherent.round_excess defs (Nat.lt_of_not_le excess)))
    · by_contra beyond
      exact within (visits.parse_error
        (coherent.round_overrun meets current takes measured beyond defs))
  · intro roomy failed
    obtain ⟨k, st, visits, fails⟩ := (parse_error_iff (by decide)).mp failed
    obtain ⟨F, coherent, -⟩ := visits.coherent
    have room := roomy k st visits
    have outcome := coherent.round defs
    rw [fails] at outcome
    cases outcome with
    | excess more => exact absurd room.scan (Nat.not_le_of_lt more)
    | unmeasured meets current takes length unmeasured numeric =>
        exact numeric.ne (by decide) rfl
    | overrun meets current takes measured beyond =>
        exact beyond (room.bulk meets current takes measured)
    | unread proceeds grouped =>
        exact grouped.numeric.ne (by decide) rfl

/-- On a message that fits, every round does. -/
theorem FixMessage.Visits.roomy (visits : FixMessage.Visits input msg defs k st)
    (fits : input.length ≤ maxMessageSize) : st.Roomy input := by
  obtain ⟨F, coherent, -⟩ := visits.coherent
  have whole := congrArg List.length coherent.whole
  have wanted := demand_le st.pending
  rw [List.length_append] at whole
  refine ⟨by omega, fun {f rest m} meets _ _ _ => ?_⟩
  have size := congrArg List.length (nextField_eq_some meets.next).1
  rw [List.length_append] at size
  unfold ParseState.Within
  omega

theorem demand_of_notMem {y : List UInt8} (free : equals ∉ y) : demand y = y.length := by
  cases next : nextField y with
  | none => exact demand_end next
  | some parts =>
      obtain ⟨split, -⟩ := nextField_eq_some next
      refine absurd ?_ free
      rw [split]
      simp [RawField.wire]

theorem admits_2048 : Admits 2048 := ⟨by decide, by decide⟩

/-- One byte more than a message of the default size holds. -/
theorem parse_leaves_buffer :
    FixMessage.parse (List.replicate 2049 65) (emptyMessage admits_2048) GroupDefs.empty =
      .error .bufferOverflow := by
  obtain ⟨buf, reset, used⟩ := reset_single (emptyMessage admits_2048)
  have start := coherent_start used (List.replicate 2049 65)
  have free : equals ∉ List.replicate 2049 (65 : UInt8) := fun inside =>
    absurd (List.eq_of_mem_replicate inside) (by decide)
  have visits : FixMessage.Visits (List.replicate 2049 65) (emptyMessage admits_2048)
      GroupDefs.empty 0 (.start buf (List.replicate 2049 65)) := ⟨buf, reset, .here _⟩
  refine visits.parse_error (start.round_excess GroupDefs.empty ?_)
  change 2048 < 0 + demand (List.replicate 2049 65)
  rw [demand_of_notMem free, List.length_replicate]
  omega

end Bytes

section Maps

/-- A count field in force opens a group below the current map; an end field opens one below
the innermost open map, when fewer groups are there than its count field announces. -/
inductive ParseState.Opens (defs : GroupDefs) (st : ParseState maxMessageSize) (f : RawField) : Prop
  | first {gd : GroupDef} (found : concerned (inForce defs f st.msgGroups) f.tag = some gd)
      (counts : gd.groupCountTag = f.tag) : Opens defs st f
  | further {gd : GroupDef} {parent : Nat} {below : List Nat} {field : Field}
      {expected : Option Int} {received : Nat}
      (found : concerned (inForce defs f st.msgGroups) f.tag = some gd)
      (ends : gd.groupCountTag ≠ f.tag) (top : st.stack = parent :: below)
      (counted : st.arena.get parent gd.groupCountTag = .ok (some field))
      (expects : Arena.getIntOf st.cursor.bytes field = .ok expected)
      (receives : st.arena.groupCount field = .ok received)
      (fewer : (received : Int) < expected.getD 0) : Opens defs st f

namespace Coherent

theorem part (h : Coherent input st F) : st.cursor.bytes <+: input := by
  refine ⟨st.cursor.input, ?_⟩
  rw [← h.whole]
  simp [Cursor.bytes, ParseState.pending]

theorem place_outer (h : Coherent input st F) (current : st.map = some m) {parent : Nat}
    (outer : parent ∈ st.stack) (tag : FieldTag) (p : UInt16 × UInt16) (t : FieldTag) :
    (F.set m tag p).place parent t = F.place parent t := by
  have nested := h.nested
  rw [opened_eq current] at nested
  have younger := (List.pairwise_cons.mp nested).1 parent outer
  exact F.place_set_of_ne p fun same => Nat.lt_irrefl _ (same.1 ▸ younger)

theorem read_outer (h : Coherent input st F) {parent : Nat} {tag : FieldTag} {field : Field}
    (counted : st.arena.get parent tag = .ok (some field)) :
    F.place parent tag = some (field.offset, field.length) ∧ field.tag = tag ∧
      st.arena.groupCount field = .ok (F.groups parent tag).length ∧
      Arena.getIntOf st.cursor.bytes field = Arena.getIntOf input field := by
  obtain ⟨place, key, count⟩ := h.shows.get_some counted
  have near := h.placed _ _ _ place
  dsimp only at near
  refine ⟨place, key, count, getIntOf_prefix h.part ?_⟩
  unfold Cursor.bytes
  rw [List.length_append]
  omega

theorem exists_due (h : Coherent input st F) (current : st.map = some m)
    (opens : st.Opens defs f) :
    ∃ p t around, Due input (F.set m f.tag (placeOf st.cursor.scanned f)) m f.tag st.stack
      (inForce defs f st.msgGroups) p t around := by
  cases opens with
  | first found counts => exact ⟨_, _, _, .first found counts⟩
  | @further gd parent below field expected received found ends top counted expects receives
      fewer =>
      have outer : parent ∈ st.stack := by simp [top]
      obtain ⟨place, key, count, same⟩ := h.read_outer counted
      rw [same] at expects
      rw [receives] at count
      cases count
      have reads : Countable input gd.groupCountTag (field.offset, field.length) := by
        by_contra unreadable
        obtain ⟨e, fails, -⟩ := getIntOf_uncounted key rfl unreadable
        rw [fails] at expects
        cases expects
      obtain ⟨v, read, number⟩ := getIntOf_counted key rfl reads
      rw [read] at expects
      cases expects
      refine ⟨_, _, _, .further found ends top ?_ reads (number ▸ fewer)⟩
      rw [h.place_outer current outer]
      exact place

theorem opens_of_due (h : Coherent input st F) (current : st.map = some m) {p : Nat}
    {t : FieldTag} {around : List Nat}
    (due : Due input (F.set m f.tag (placeOf st.cursor.scanned f)) m f.tag st.stack
      (inForce defs f st.msgGroups) p t around) : st.Opens defs f := by
  cases due with
  | first found counts => exact .first found counts
  | @further gd _ below place found ends top known reads fewer =>
      have outer : p ∈ st.stack := by simp [top]
      rw [h.place_outer current outer] at known
      obtain ⟨field, counted, rfl, key, count⟩ := h.shows.exists_get known
      obtain ⟨-, -, -, bytes⟩ := h.read_outer counted
      obtain ⟨v, read, number⟩ := getIntOf_counted key rfl reads
      exact .further found ends top counted (bytes.trans read) count (number ▸ fewer)

/-- A round that opens a group goes on, without a current map if there is no room. -/
theorem round_opens (h : Coherent input st F) (proceeds : st.Proceeds input m f rest)
    (opens : st.Opens defs f) :
    (Arena.RoomFor maxMessageSize (st.arena.maps.length + 1) ∧ ∃ st',
      parseField defs st = .ok (.next st')) ∨
    (¬ Arena.RoomFor maxMessageSize (st.arena.maps.length + 1) ∧ ∃ a around,
      parseField defs st =
        .ok (.next ⟨st.passed input f rest, a, none, around, inForce defs f st.msgGroups⟩)) := by
  obtain ⟨a, stored, shows⟩ := h.exists_stored proceeds.takes
  obtain ⟨p, t, around, due⟩ := h.exists_due proceeds.current opens
  obtain ⟨part, placed⟩ := h.placed_passed proceeds.meets m
  have step := due.groupStep shows part placed (h.current_lt proceeds.current)
    (fun _ => h.outer_lt) (F.place_set _ _ _)
  rw [h.round_grouped proceeds stored shows, h.shows.size]
  rcases step with ⟨room, a', inside, step, -⟩ | ⟨full, step⟩
  · rw [step]
    exact .inl ⟨room, _, rfl⟩
  · rw [step]
    exact .inr ⟨full, a, around, rfl⟩

theorem exists_next (h : Coherent input st F) (proceeds : st.Proceeds input m f rest)
    (opens : st.Opens defs f) : ∃ st', parseField defs st = .ok (.next st') := by
  rcases h.round_opens proceeds opens with ⟨-, st', round⟩ | ⟨-, a, around, round⟩
  · exact ⟨st', round⟩
  · exact ⟨_, round⟩

end Coherent

/-- Nothing but the end of the message comes in what is left of the stream. -/
def Bare (rest : List UInt8) : Prop :=
  ∀ g z, nextField rest = some (g, z) → g.tag = .checkSum

theorem ParseState.pending_passed (st : ParseState maxMessageSize) (input : List UInt8)
    (f : RawField) (rest : List UInt8) (a : Arena maxMessageSize) (map : Option Nat)
    (stack : List Nat) (groups : Option (List GroupDef)) :
    ParseState.pending ⟨st.passed input f rest, a, map, stack, groups⟩ = rest := by
  unfold ParseState.pending ParseState.passed window
  exact List.take_append_drop _ _

theorem Coherent.meets_of_fits (h : Coherent input st F) (fits : input.length ≤ maxMessageSize)
    (next : nextField st.pending = some (f, rest)) (notLast : f.tag ≠ .checkSum) :
    st.Meets f rest := by
  refine ⟨next, ?_, notLast⟩
  have whole := congrArg List.length h.whole
  have split := congrArg List.length (nextField_eq_some next).1
  rw [List.length_append] at whole split
  omega

theorem Coherent.opens_of_lost (h : Coherent input st F)
    (round : parseField defs st = .ok (.next st')) (lost : st'.map = none) :
    ∃ m f, st.Proceeds input m f st'.pending ∧ st.Opens defs f ∧
      ¬ Arena.RoomFor maxMessageSize (st.arena.maps.length + 1) := by
  have outcome := h.round defs
  rw [round] at outcome
  cases outcome with
  | @next f rest m a _ F' proceeds stored shows step grouped extends' coherent' =>
      cases grouped with
      | stays plain => cases lost
      | grows due inside room shows' => cases lost
      | closes plain top => cases lost
      | lost due full =>
          rw [st.pending_passed]
          refine ⟨m, f, proceeds, h.opens_of_due proceeds.current due, ?_⟩
          rw [h.shows.size]
          exact full

/-- On a message that fits, the parser never goes on without a current map exactly if every
round that opens a group finds room for its map, or no field comes behind it. -/
theorem parse_keeps_map_iff (msg : FixMessage maxMessageSize) (defs : GroupDefs)
    (fits : input.length ≤ maxMessageSize) :
    FixMessage.parse input msg defs ≠ .error .nullPointer ↔
      ∀ k st m f rest, FixMessage.Visits input msg defs k st → st.Proceeds input m f rest →
        st.Opens defs f → Arena.RoomFor maxMessageSize (st.arena.maps.length + 1) ∨
          Bare rest := by
  constructor
  · intro keeps k st m f rest visits proceeds opens
    by_contra neither
    rw [not_or] at neither
    obtain ⟨full, behind⟩ := neither
    unfold Bare at behind
    push Not at behind
    obtain ⟨g, z, next, notLast⟩ := behind
    obtain ⟨F, coherent, -⟩ := visits.coherent
    rcases coherent.round_opens proceeds opens with ⟨room, -⟩ | ⟨-, a, around, round⟩
    · exact full room
    · have visits' := visits.step round
      obtain ⟨F', coherent', -⟩ := visits'.coherent
      rw [← st.pending_passed input f rest a none around (inForce defs f st.msgGroups)] at next
      have meets := coherent'.meets_of_fits fits next notLast
      exact keeps (visits'.parse_error (Coherent.round_null meets rfl))
  · intro kept failed
    obtain ⟨k, st', visits, fails⟩ := (parse_error_iff (by decide)).mp failed
    obtain ⟨F', coherent', -⟩ := visits.coherent
    have outcome := coherent'.round defs
    rw [fails] at outcome
    cases outcome with
    | unmeasured meets current takes length unmeasured numeric =>
        exact numeric.ne (by decide) rfl
    | unread proceeds grouped => exact grouped.numeric.ne (by decide) rfl
    | @null g z meets lost =>
        cases k with
        | zero =>
            obtain ⟨buf, -, run⟩ := visits
            cases run
            cases lost
        | succ k =>
            obtain ⟨st, before, round⟩ := visits.exists_last
            obtain ⟨F, coherent, -⟩ := before.coherent
            obtain ⟨m, f, proceeds, opens, full⟩ := coherent.opens_of_lost round lost
            rcases kept k st m f _ before proceeds opens with room | bare
            · exact full room
            · exact meets.notLast (bare g z meets.next)

def faultOf {α : Type} : Except ParseFault α → Option ParseFault
  | .error e => some e
  | .ok _ => none

theorem eq_error_of_faultOf {α : Type} {r : Except ParseFault α} {e : ParseFault}
    (h : faultOf r = some e) : r = .error e := by
  cases r with
  | error e' => exact congrArg Except.error (Option.some.inj h)
  | ok v => cases h

theorem ne_error_of_faultOf {α : Type} {r : Except ParseFault α} {e : ParseFault}
    (h : faultOf r = none) : r ≠ .error e := by
  rintro rfl
  cases h

def legDefs : GroupDefs := GroupDefs.empty.add (ascii "s") ⟨.noLegs, .legSymbol⟩

def twoLegsStream : List UInt8 :=
  ascii "35=s" ++ soh :: (ascii "555=2" ++ soh :: (ascii "600=A" ++ soh ::
    (ascii "600=B" ++ [soh])))

def threeLegsStream : List UInt8 :=
  ascii "35=s" ++ soh :: (ascii "555=3" ++ soh :: (ascii "600=A" ++ soh ::
    (ascii "600=B" ++ soh :: (ascii "600=C" ++ [soh]))))

/-- Two legs and the message itself are the three maps a message of the default size has
room for. -/
theorem parse_keeps_map_two_legs :
    twoLegsStream.length ≤ 2048 ∧
      ∀ k st m f rest,
        FixMessage.Visits twoLegsStream (emptyMessage admits_2048) legDefs k st →
          st.Proceeds twoLegsStream m f rest → st.Opens legDefs f →
            Arena.RoomFor 2048 (st.arena.maps.length + 1) ∨ Bare rest :=
  ⟨by decide, (parse_keeps_map_iff (emptyMessage admits_2048) legDefs (by decide)).mp
    (ne_error_of_faultOf (by decide +kernel))⟩

/-- The map of a third leg is null, and its first field goes to it. -/
theorem parse_loses_third_leg :
    threeLegsStream.length ≤ 2048 ∧
      FixMessage.parse threeLegsStream (emptyMessage admits_2048) legDefs =
        .error .nullPointer :=
  ⟨by decide, eq_error_of_faultOf (by decide +kernel)⟩

end Maps

section Slots

/-- A field of this tag is sent to this map. -/
def Reached (input : List UInt8) (msg : FixMessage maxMessageSize) (defs : GroupDefs) (m : Nat)
    (tag : FieldTag) : Prop :=
  ∃ k st f, Sends input msg defs k st m f ∧ f.tag = tag

theorem sent_of_mem_keys {fm : FieldMap} {tag : FieldTag}
    (visits : FixMessage.Visits input msg defs k st) (coherent : Coherent input st F)
    (cell : st.arena.cells m = some fm) (known : tag ∈ fm.map.keys) :
    Reached input msg defs m tag := by
  obtain ⟨field, found⟩ := KeyedList.mem_keys_iff.mp known
  obtain ⟨place, -⟩ := coherent.shows.present cell found
  obtain ⟨j, st', f, latest, key, -⟩ := (visits.told coherent).sent place
  exact ⟨j, st', f, latest.sends, key⟩

theorem mem_keys_of_sent {fm : FieldMap} {j : Nat}
    (visits : FixMessage.Visits input msg defs k st) (coherent : Coherent input st F)
    (cell : st.arena.cells m = some fm) (earlier : j < k) (sends : Sends input msg defs j st' m f) :
    f.tag ∈ fm.map.keys := by
  by_contra fresh
  have missing := (coherent.shows.absent cell (KeyedList.find_eq_none.mpr fresh)).1
  exact (visits.told coherent).unsent missing earlier sends rfl

theorem exists_final (input : List UInt8) (msg : FixMessage maxMessageSize) (defs : GroupDefs) :
    ∃ k st, FixMessage.Visits input msg defs k st ∧
      ∀ i st', FixMessage.Visits input msg defs i st' → i ≤ k := by
  obtain ⟨buf, reset, -⟩ := reset_single msg
  have first : FixMessage.Visits input msg defs 0 (.start buf input) := ⟨buf, reset, .here _⟩
  have bounded : ∃ k, (∃ st, FixMessage.Visits input msg defs k st) ∧
      ∀ i st', FixMessage.Visits input msg defs i st' → i ≤ k := by
    classical
    refine ⟨Nat.findGreatest (fun k => ∃ st, FixMessage.Visits input msg defs k st) input.length,
      Nat.findGreatest_spec (P := fun k => ∃ st, FixMessage.Visits input msg defs k st)
        (Nat.zero_le _) ⟨_, first⟩, fun i st' visits => ?_⟩
    exact Nat.le_findGreatest visits.budget ⟨st', visits⟩
  obtain ⟨k, ⟨st, visits⟩, last⟩ := bounded
  exact ⟨k, st, visits, last⟩

theorem lt_size_of_sends {j : Nat} (visits : FixMessage.Visits input msg defs k st)
    (coherent : Coherent input st F) (le : j ≤ k) (sends : Sends input msg defs j st' m f) :
    m < F.size := by
  rcases Nat.lt_or_eq_of_le le with earlier | rfl
  · by_contra outside
    have missing := coherent.shows.beyond m f.tag (Nat.le_of_not_lt outside)
    exact (visits.told coherent).unsent missing earlier sends rfl
  · obtain rfl := visits.unique sends.visits
    exact coherent.current_lt sends.current

/-- A tag a map has been sent up to and with a round is in a slot, or that of the next
field. -/
theorem known_or_next {j : Nat} {fm : FieldMap} (visits : FixMessage.Visits input msg defs k st)
    (coherent : Coherent input st F) (cell : st.arena.cells m = some fm) (le : j ≤ k)
    (sends : Sends input msg defs j st' m f) :
    f.tag ∈ fm.map.keys ∨ ∃ rest, st.Meets f rest ∧ st.map = some m := by
  rcases Nat.lt_or_eq_of_le le with earlier | rfl
  · exact .inl (mem_keys_of_sent visits coherent cell earlier sends)
  · obtain rfl := visits.unique sends.visits
    obtain ⟨rest, meets⟩ := sends.meets
    exact .inr ⟨rest, meets, sends.current⟩

/-- The tags a map has been sent up to and with a round are in its slots, or find one. -/
theorem slots_le {tags : List FieldTag} (distinct : tags.Nodup)
    (visits : FixMessage.Visits input msg defs k st) (coherent : Coherent input st F)
    (inside : m < F.size)
    (takes : ∀ f rest, st.Meets f rest → st.map = some m → st.Takes m f.tag)
    (all : ∀ tag ∈ tags, ∃ j st' f, j ≤ k ∧ Sends input msg defs j st' m f ∧ f.tag = tag) :
    tags.length ≤ fixMsgMaxFieldCount := by
  obtain ⟨fm, cell⟩ := coherent.shows.exists_cell inside
  have size : fm.map.keys.length = fm.map.items.length := List.length_map _
  have slots : fm.map.keys.length ≤ fixMsgMaxFieldCount := size ▸ fm.map.bounded
  have covered : ∃ bound : List FieldTag,
      tags ⊆ bound ∧ bound.length ≤ fixMsgMaxFieldCount := by
    by_cases now : ∃ f rest, st.Meets f rest ∧ st.map = some m
    · obtain ⟨f, rest, meets, current⟩ := now
      have within : tags ⊆ f.tag :: fm.map.keys := by
        intro tag hm
        obtain ⟨j, st', g, le, sends, rfl⟩ := all tag hm
        rcases known_or_next visits coherent cell le sends with known | ⟨z, meets', -⟩
        · exact List.mem_cons_of_mem _ known
        · obtain ⟨rfl, rfl⟩ := meets.unique meets'
          exact List.mem_cons_self
      obtain ⟨fm', cell', slot⟩ := takes f rest meets current
      rw [cell] at cell'
      cases cell'
      rcases slot with known | free
      · refine ⟨fm.map.keys, fun tag hm => ?_, slots⟩
        rcases List.mem_cons.mp (within hm) with rfl | old
        · exact known
        · exact old
      · refine ⟨f.tag :: fm.map.keys, within, ?_⟩
        rw [List.length_cons, size]
        exact free
    · refine ⟨fm.map.keys, fun tag hm => ?_, slots⟩
      obtain ⟨j, st', g, le, sends, rfl⟩ := all tag hm
      rcases known_or_next visits coherent cell le sends with known | ⟨z, meets, current⟩
      · exact known
      · exact absurd ⟨g, z, meets, current⟩ now
  obtain ⟨bound, sub, few⟩ := covered
  exact Nat.le_trans (distinct.subperm sub).length_le few

/-- No field list overflows exactly if no map is sent fields of more than 64 tags. -/
theorem parse_slots_iff (input : List UInt8) (msg : FixMessage maxMessageSize) (defs : GroupDefs) :
    FixMessage.parse input msg defs ≠ .error .fieldListFull ↔
      ∀ (m : Nat) (tags : List FieldTag), tags.Nodup →
        (∀ tag ∈ tags, Reached input msg defs m tag) → tags.length ≤ fixMsgMaxFieldCount := by
  constructor
  · intro fine m tags distinct all
    obtain ⟨k, st, visits, last⟩ := exists_final input msg defs
    obtain ⟨F, coherent, -⟩ := visits.coherent
    cases tags with
    | nil => exact Nat.zero_le _
    | cons tag tags =>
        obtain ⟨j, st', f, sends, -⟩ := all tag List.mem_cons_self
        have inside := lt_size_of_sends visits coherent (last j st' sends.visits) sends
        refine slots_le distinct visits coherent inside (fun f rest meets current => ?_)
          fun tag hm => ?_
        · by_contra refuses
          exact fine (visits.parse_error (coherent.round_full meets current refuses))
        · obtain ⟨j, st', f, sends, key⟩ := all tag hm
          exact ⟨j, st', f, last j st' sends.visits, sends, key⟩
  · intro few failed
    obtain ⟨k, st, visits, fails⟩ := (parse_error_iff (by decide)).mp failed
    obtain ⟨F, coherent, -⟩ := visits.coherent
    have outcome := coherent.round defs
    rw [fails] at outcome
    cases outcome with
    | unmeasured meets current takes length unmeasured numeric =>
        exact numeric.ne (by decide) rfl
    | unread proceeds grouped =>
        exact grouped.numeric.ne (by decide) rfl
    | @full f rest m meets current refuses =>
        have inside := coherent.current_lt current
        obtain ⟨fm, cell⟩ := coherent.shows.exists_cell inside
        have fresh : f.tag ∉ fm.map.keys := fun known => refuses ⟨fm, cell, .inl known⟩
        have full : fixMsgMaxFieldCount ≤ fm.map.items.length :=
          Nat.le_of_not_lt fun free => refuses ⟨fm, cell, .inr free⟩
        have count := few m (f.tag :: fm.map.keys)
          (List.nodup_cons.mpr ⟨fresh, fm.map.distinct⟩) fun tag hm => by
            rcases List.mem_cons.mp hm with rfl | known
            · exact ⟨k, st, f, ⟨visits, ⟨rest, meets⟩, current⟩, rfl⟩
            · exact sent_of_mem_keys visits coherent cell known
        have size : fm.map.keys.length = fm.map.items.length := List.length_map _
        rw [List.length_cons, size] at count
        omega

def crowded : List RawField := (List.range' 33 65).map fun i => ⟨ftof (.ofNat i), ascii "A"⟩

theorem map_tag_crowded : crowded.map RawField.tag = (List.range' 33 65).map FieldTag.ofNat := by
  unfold crowded
  rw [List.map_map]
  refine List.map_congr_left fun i _ => ?_
  simp [RawField.tag, stoft_ftof]

theorem storable_crowded : ∀ f ∈ crowded, Storable GroupDefs.empty f := by
  have plain : ∀ i ∈ List.range' 33 65, FieldTag.ofNat i ≠ .checkSum ∧
      FieldTag.ofNat i ≠ .bodyLength := by decide +kernel
  have texts : ∀ f ∈ crowded, equals ∉ f.text ∧ soh ∉ f.value := by decide +kernel
  intro f hf
  have tag : f.tag ∈ (List.range' 33 65).map FieldTag.ofNat :=
    map_tag_crowded ▸ List.mem_map_of_mem hf
  obtain ⟨i, hi, named⟩ := List.mem_map.mp tag
  obtain ⟨notLast, notLength⟩ := plain i hi
  rw [named] at notLast notLength
  exact ⟨⟨(texts f hf).1, (texts f hf).2⟩, notLast, notLength, fun _ => rfl⟩

theorem parse_fills_slots :
    (wireAll crowded).length ≤ 2048 ∧
      FixMessage.parse (wireAll crowded) (emptyMessage admits_2048) GroupDefs.empty =
        .error .fieldListFull := by
  have fits : (wireAll crowded).length ≤ 2048 := by decide +kernel
  refine ⟨fits, ?_⟩
  obtain ⟨buf, reset, -⟩ := reset_single (emptyMessage admits_2048)
  have full : storeAll crowded = none := by
    cases stored : storeAll crowded with
    | none => rfl
    | some l =>
        have few := exists_storeAll.mp ⟨l, stored⟩
        have many : ((List.range' 33 65).map FieldTag.ofNat).dedup.length = 65 := by
          decide +kernel
        rw [map_tag_crowded, many] at few
        exact absurd few (by decide)
  obtain ⟨k, st, le, run, fails⟩ := fails_full (s := []) storable_crowded buf [] 0
    (show Quiet none from rfl) (by rw [List.length_nil, Nat.zero_add]; exact fits) full
  have rounds := length_le_wireAll crowded
  rw [List.append_nil] at run
  exact parse_fail reset run fails (Nat.le_trans le rounds)

end Slots

end FastLittleMarket.Fix
