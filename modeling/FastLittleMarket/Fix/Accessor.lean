import FastLittleMarket.Library.Rooted
import FastLittleMarket.Fix.Distribution

/-!
Reading a parsed message through its accessors. A group is reached from the message by
a path of count tags and positions; the maps of a parsed message are a tree, so that
every map has one path. What the accessors read in a map are the values of its fields.
-/

namespace FastLittleMarket.Fix

variable {maxMessageSize : Nat}

namespace FixMessage

section Readers

variable (msg : FixMessage maxMessageSize) (map : Nat)

def getGroup (groupTag : FieldTag) (index : Nat) : Except ParseFault (Option Nat) :=
  msg.arena.getGroup map groupTag index

/-- Repeated `getGroup` calls, each on the accessor that the one before returned. -/
def follow : Nat → List (FieldTag × Nat) → Except ParseFault (Option Nat)
  | map, [] => .ok (some map)
  | map, (groupTag, index) :: path => do
      match ← msg.getGroup map groupTag index with
      | none => pure none
      | some grp => follow grp path

end Readers

end FixMessage

section Shape

variable {a : Arena maxMessageSize} {F : Forest} {m : Nat} {tag : FieldTag}

/-- The group at the index of a field's list. -/
def Forest.edge (F : Forest) (m : Nat) (place : FieldTag × Nat) : Option Nat :=
  (F.groups m place.1)[place.2]?

/-- Every map but the first has been opened below another one. -/
structure Forest.Covered (F : Forest) : Prop where
  root : 0 < F.size
  opened : ∀ {j}, 0 < j → j < F.size → ∃ m tag, j ∈ F.groups m tag

theorem Arena.Shows.getGroup_eq (h : a.Shows F) (inside : m < F.size) (index : Nat) :
    a.getGroup m tag index = .ok (F.edge m (tag, index)) := by
  obtain ⟨fm, cell⟩ := h.exists_cell inside
  have read : a.get m tag = .ok (fm.map.find tag) := Heap.get_cell cell
  unfold Heap.getGroup Forest.edge
  rw [read]
  cases found : fm.map.find tag with
  | none =>
      rw [(h.absent cell found).2]
      rfl
  | some field =>
      obtain ⟨-, linked, -⟩ := h.present cell found
      dsimp only [bind, Except.bind]
      cases head : field.groups with
      | none =>
          rw [head] at linked
          rw [linked.eq_nil]
          simp [Field.isGroup, head, pure, Except.pure]
      | some g =>
          simp only [Field.isGroup, head, Option.isSome_some, Bool.not_true,
            Bool.false_eq_true, ite_false, pure, Except.pure, Heap.group]
          rw [← head, linked.nth_eq]

theorem Forest.Covered.rooted (h : F.Covered) : Rooted F.edge 0 {j | j < F.size} where
  mem := h.root
  closed _ found := (F.newer (List.mem_of_getElem? found)).2
  top m place found := by
    have later := (F.newer (List.mem_of_getElem? found)).1
    omega
  entered {n} inside other := by
    obtain ⟨m, tag, mem⟩ := h.opened (Nat.pos_of_ne_zero other) inside
    obtain ⟨i, found⟩ := List.mem_iff_getElem?.mp mem
    exact ⟨m, Nat.lt_trans (F.newer mem).1 (F.newer mem).2, (tag, i), found⟩
  once {m m' p p' n} found found' := by
    obtain ⟨rfl, same⟩ := F.apart (List.mem_of_getElem? found) (List.mem_of_getElem? found')
    obtain ⟨tag, i⟩ := p
    obtain ⟨tag', i'⟩ := p'
    obtain rfl : tag = tag' := same
    have inside := (List.getElem?_eq_some_iff.mp found).1
    refine ⟨rfl, congrArg (Prod.mk tag) ?_⟩
    exact (List.getElem?_inj inside (F.nodup m tag)).mp (found.trans found'.symm)

theorem Forest.covered_root : Forest.root.Covered where
  root := Nat.one_pos
  opened {j} low high := by
    change j < 1 at high
    omega

theorem Forest.Covered.set (h : F.Covered) (p : UInt16 × UInt16) : (F.set m tag p).Covered where
  root := h.root
  opened := h.opened

theorem Forest.Covered.graft (h : F.Covered) (inside : m < F.size) :
    (F.graft m tag inside).Covered where
  root := Nat.succ_pos _
  opened {j} low high := by
    rcases Nat.lt_or_eq_of_le (Nat.le_of_lt_succ high) with old | rfl
    · obtain ⟨m', tag', mem⟩ := h.opened low old
      refine ⟨m', tag', ?_⟩
      unfold Forest.graft
      dsimp only
      split
      · exact List.mem_append_left _ mem
      · exact mem
    · refine ⟨m, tag, ?_⟩
      rw [F.groups_graft]
      simp

end Shape

section Parsed

variable {input : List UInt8} {msg msg' : FixMessage maxMessageSize} {defs : GroupDefs}
  {st st' : ParseState maxMessageSize} {k m : Nat} {z : List UInt8} {F F' : Forest}

theorem Extends.covered {tag : FieldTag} {stack : List Nat} {groups : Option (List GroupDef)}
    (h : Extends input maxMessageSize F m tag stack groups F') (covered : F.Covered) :
    F'.Covered := by
  cases h with
  | same quiet => exact covered
  | graft due inside room => exact covered.graft inside

theorem FixMessage.Visits.covered_forest (h : FixMessage.Visits input msg defs k st) :
    ∃ F, Coherent input st F ∧ F.Covered := by
  induction k generalizing st with
  | zero =>
      obtain ⟨buf, reset, run⟩ := h
      cases run
      obtain ⟨buf', reset', used⟩ := reset_single msg
      rw [reset] at reset'
      cases reset'
      exact ⟨_, coherent_start used input, Forest.covered_root⟩
  | succ k ih =>
      obtain ⟨st₀, before, round⟩ := h.exists_last
      obtain ⟨F, coherent, covered⟩ := ih before
      have outcome := coherent.round defs
      rw [round] at outcome
      cases outcome with
      | next proceeds stored shows step grouped extends' coherent' =>
          exact ⟨_, coherent', extends'.covered (covered.set _)⟩

/-- The maps of a parsed message, as a forest that has been opened from the first map. -/
theorem exists_tree (parsed : FixMessage.parse input msg defs = .ok (msg', z)) :
    ∃ F, msg'.arena.Shows F ∧ F.Covered := by
  obtain ⟨k, st, st', visits, exits, rfl⟩ := exists_last_round parsed
  obtain ⟨F, coherent, covered⟩ := visits.covered_forest
  have outcome := coherent.round defs
  rw [exits] at outcome
  cases outcome with
  | leaves part held unmet => exact ⟨F, coherent.shows, covered⟩
  | short meets current stored shows part held => exact ⟨_, shows, covered.set _⟩

theorem follow_eq (shows : msg'.arena.Shows F) (inside : m < F.size)
    (path : List (FieldTag × Nat)) :
    msg'.follow m path = .ok (walk F.edge m path) := by
  induction path generalizing m with
  | nil => rfl
  | cons place path ih =>
      rw [walk_cons]
      unfold FixMessage.follow FixMessage.getGroup
      rw [shows.getGroup_eq inside]
      dsimp only [bind, Except.bind]
      cases found : F.edge m place with
      | none => rfl
      | some j => exact ih (F.newer (List.mem_of_getElem? found)).2

/-- Whatever the bytes and the group definitions, the maps of a parsed message are a tree:
exactly one path of `getGroup` calls leads from the message to each, every walk ends, and
a field has the groups that are counted and no more. -/
theorem parse_makes_tree (parsed : FixMessage.parse input msg defs = .ok (msg', z)) :
    (∀ path, ∃ found, msg'.follow FixMessage.root path = .ok found ∧
      ∀ j ∈ found, j < msg'.arena.maps.length) ∧
    (∀ j < msg'.arena.maps.length, ∃! path, msg'.follow FixMessage.root path = .ok (some j)) ∧
    ∀ m tag field, msg'.arena.get m tag = .ok (some field) →
      ∃ count, msg'.arena.groupCount field = .ok count ∧
        ∀ index, (∃ j, msg'.getGroup m tag index = .ok (some j)) ↔ index < count := by
  obtain ⟨F, shows, covered⟩ := exists_tree parsed
  have rooted := covered.rooted
  rw [shows.size]
  refine ⟨fun path => ⟨_, follow_eq shows covered.root path, fun j leads => ?_⟩,
    fun j inside => ?_, fun m tag field found => ?_⟩
  · exact rooted.mem_of_walk leads
  · have one := rooted.existsUnique_walk
      (fun found => (F.newer (List.mem_of_getElem? found)).1) inside
    obtain ⟨path, leads, only⟩ := one
    refine ⟨path, by rw [← leads]; exact follow_eq shows covered.root path, fun path' follows => ?_⟩
    apply only
    have walks := follow_eq shows covered.root path'
    exact Except.ok.inj (walks.symm.trans follows)
  · obtain ⟨place, -, count⟩ := shows.get_some found
    refine ⟨_, count, fun index => ?_⟩
    unfold FixMessage.getGroup
    rw [shows.getGroup_eq (shows.lt_of_place place)]
    simp only [Forest.edge, Except.ok.injEq, List.getElem?_eq_some_iff]
    exact ⟨fun ⟨_, inside, _⟩ => inside, fun inside => ⟨_, inside, rfl⟩⟩

theorem parse_makes_tree_two_legs :
    ∃ msg' z, FixMessage.parse twoLegsStream (emptyMessage admits_2048) legDefs =
        .ok (msg', z) ∧ msg'.arena.maps.length = 3 ∧
      ∀ j < 3, ∃! path, msg'.follow FixMessage.root path = .ok (some j) := by
  have seen : (FixMessage.parse twoLegsStream (emptyMessage admits_2048) legDefs).map
      (fun r => r.1.arena.maps.length) = .ok 3 := by decide +kernel
  obtain ⟨⟨msg', z⟩, parsed, size⟩ := Loop.exists_of_map seen
  dsimp only at size
  refine ⟨msg', z, parsed, size, ?_⟩
  rw [← size]
  exact (parse_makes_tree parsed).2.1

end Parsed

section Values

variable {bound bound' : Int} {v : List UInt8} {n : Int}

def NumberOrOverflow (r : Except ParseFault Int) : Prop :=
  (∃ n, r = .ok n) ∨ r = .error .intOverflow

theorem NumberOrOverflow.bind {r : Except ParseFault Int} {f : Int → Except ParseFault Int}
    (h : NumberOrOverflow r) (next : ∀ n, NumberOrOverflow (f n)) :
    NumberOrOverflow (r.bind f) := by
  rcases h with ⟨n, rfl⟩ | rfl
  · exact next n
  · exact .inr rfl

end Values

section Readings

variable {input : List UInt8} {msg msg' : FixMessage maxMessageSize} {defs : GroupDefs}
  {m : Nat} {tag : FieldTag} {z : List UInt8} {field : Field} {front v behind : List UInt8}

variable {groupTag : FieldTag} {index j : Nat}

end Readings

end FastLittleMarket.Fix
