import Mathlib.Data.List.Pairwise
import FastLittleMarket.Fix.Heap

/-!
Calls of `set` and `addGroup` on one field map, one after the other, and what the map
answers behind them. Every call is kept with the map it returned, if any.
-/

namespace FastLittleMarket.Fix

/-- A buffer of any capacity, placed so that no request for a field map wraps. -/
structure PlacedBuffer extends Buffer where
  placed : toBuffer.Placed sizeofFieldMap

theorem toNat_sizeofFieldMap : (UInt64.ofNat sizeofFieldMap).toNat = sizeofFieldMap := rfl

instance : MapBuffer PlacedBuffer where
  allocate b :=
    match granted : b.toBuffer.allocate (UInt64.ofNat sizeofFieldMap) with
    | none => none
    | some (_, buf) => some ⟨buf, (b.placed.allocate (Nat.le_of_eq toNat_sizeofFieldMap) granted).1⟩

/-- A call on a field map: `set` of a plain field, or `addGroup`. -/
inductive MapCall where
  | set (tag : FieldTag) (offset length : UInt16)
  | addGroup (tag : FieldTag)
  deriving DecidableEq

namespace MapCall

def tag : MapCall → FieldTag
  | .set tag _ _ => tag
  | .addGroup tag => tag

/-- The tag for which a call has left a field. -/
def stored : MapCall × Option Nat → Option FieldTag
  | (.set tag _ _, _) => some tag
  | (.addGroup tag, group) => group.map fun _ => tag

def place (tag : FieldTag) : MapCall × Option Nat → Option (UInt16 × UInt16)
  | (.set t offset length, _) => if t = tag then some (offset, length) else none
  | (.addGroup _, _) => none

def added (tag : FieldTag) : MapCall × Option Nat → Option Nat
  | (.set _ _ _, _) => none
  | (.addGroup t, group) => if t = tag then group else none

end MapCall

section Past

variable (tag : FieldTag) (past : List (MapCall × Option Nat)) (call : MapCall × Option Nat)

def used : List FieldTag := KeyedList.firstUses [] (past.filterMap MapCall.stored)

def lastSet : Option (UInt16 × UInt16) := (past.filterMap (MapCall.place tag)).getLast?

/-- The maps returned for a tag. -/
def returned : List Nat := past.filterMap (MapCall.added tag)

end Past

namespace Heap

variable {β : Type}

section Definitions

variable [MapBuffer β]

def call (h : Heap β) (m : Nat) : MapCall → Except ParseFault (Option Nat × Heap β)
  | .set tag offset length => do
      let h ← h.set m (Field.plain tag offset.toNat length.toNat)
      pure (none, h)
  | .addGroup tag => h.addGroup m tag

def calls (m : Nat) :
    List MapCall → Heap β → Except ParseFault (List (MapCall × Option Nat) × Heap β)
  | [], h => .ok ([], h)
  | c :: cs, h => do
      let (group, h) ← h.call m c
      let (past, h) ← calls m cs h
      pure ((c, group) :: past, h)

end Definitions

/-- What the map `m` answers when the calls in `past` have been made on it. -/
structure Answers (h : Heap β) (m : Nat) (past : List (MapCall × Option Nat)) : Prop where
  tags : ∃ fields, h.getFields m = .ok fields ∧ fields.map Field.tag = used past ∧
    (used past).Nodup
  get : ∀ tag, ∃ found, h.get m tag = .ok found ∧
    found.map (fun f => (f.offset, f.length)) =
      if tag ∈ used past then some ((lastSet tag past).getD (0, 0)) else none
  getGroup : ∀ tag index, h.getGroup m tag index = .ok (returned tag past)[index]?
  groups : ∀ tag f, h.get m tag = .ok (some f) →
    h.groupCount f = .ok (returned tag past).length ∧ f.groups = (returned tag past).head? ∧
      f.tail = (returned tag past).getLast?
  distinct : (past.filterMap Prod.snd).Nodup

/-- The field under a tag leads to the maps returned for it. -/
structure Leads (h : Heap β) (tag : FieldTag) (past : List (MapCall × Option Nat)) (f : Field) :
    Prop where
  place : (f.offset, f.length) = (lastSet tag past).getD (0, 0)
  linked : Chain.Linked h.next f.groups (returned tag past)
  tail : f.tail = (returned tag past).getLast?

/-- What holds of the map `m` and its groups behind the calls in `past`. -/
structure Follows (h : Heap β) (m : Nat) (past : List (MapCall × Option Nat)) (l : FieldList) :
    Prop where
  cell : ∃ nx, h.cells m = some ⟨nx, l⟩
  keys : l.keys = used past
  leads : ∀ {tag f}, l.find tag = some f → h.Leads tag past f
  inside : ∀ j ∈ past.filterMap Prod.snd, m < j ∧ j < h.maps.length
  distinct : (past.filterMap Prod.snd).Nodup

/-- There is one map more, `m` has the field list `l`, and the map `tail` is linked to the
new one. -/
structure Grown (h h' : Heap β) (m : Nat) (l : FieldList) (tail : Option Nat) : Prop where
  size : h'.maps.length = h.maps.length + 1
  cell : ∃ nx, h'.cells m = some ⟨nx, l⟩
  next : ∀ j, h'.next j = if tail = some j then some h.maps.length else h.next j

end Heap

section Past

variable {tag t : FieldTag} {past : List (MapCall × Option Nat)} {call : MapCall × Option Nat}

theorem used_snoc (past : List (MapCall × Option Nat)) (call : MapCall × Option Nat) :
    used (past ++ [call]) =
      match MapCall.stored call with
      | none => used past
      | some t => if t ∈ used past then used past else used past ++ [t] := by
  unfold used KeyedList.firstUses
  rw [List.filterMap_append, List.foldl_append]
  cases stored : MapCall.stored call with
  | none => simp [stored]
  | some t => simp [stored]

theorem returned_snoc (tag : FieldTag) (past : List (MapCall × Option Nat))
    (call : MapCall × Option Nat) :
    returned tag (past ++ [call]) = returned tag past ++ (MapCall.added tag call).toList := by
  unfold returned
  rw [List.filterMap_append]
  cases added : MapCall.added tag call <;> simp [added]

theorem returned_snoc_none (tag : FieldTag) (past : List (MapCall × Option Nat)) (c : MapCall) :
    returned tag (past ++ [(c, none)]) = returned tag past := by
  have nothing : MapCall.added tag (c, none) = none := by
    cases c with
    | set t offset length => rfl
    | addGroup t => exact ite_self none
  rw [returned_snoc, nothing, Option.toList_none, List.append_nil]

theorem results_snoc (past : List (MapCall × Option Nat)) (call : MapCall × Option Nat) :
    (past ++ [call]).filterMap Prod.snd = past.filterMap Prod.snd ++ call.2.toList := by
  rw [List.filterMap_append]
  cases given : call.2 <;> simp [given]

theorem results_snoc_none (past : List (MapCall × Option Nat)) (c : MapCall) :
    (past ++ [(c, none)]).filterMap Prod.snd = past.filterMap Prod.snd := by
  rw [results_snoc, Option.toList_none, List.append_nil]

theorem lastSet_snoc (tag : FieldTag) (past : List (MapCall × Option Nat))
    (call : MapCall × Option Nat) :
    lastSet tag (past ++ [call]) = (MapCall.place tag call).or (lastSet tag past) := by
  unfold lastSet
  rw [List.filterMap_append]
  cases place : MapCall.place tag call <;> simp [place]

theorem added_eq_some {j : Nat} (h : MapCall.added tag call = some j) :
    call = (.addGroup tag, some j) := by
  obtain ⟨c, group⟩ := call
  cases c with
  | set t offset length => cases h
  | addGroup t =>
      by_cases same : t = tag
      · have given : group = some j := (if_pos same).symm.trans h
        rw [same, given]
      · cases (if_neg same).symm.trans h

theorem mem_returned {j : Nat} (h : j ∈ returned tag past) :
    (MapCall.addGroup tag, some j) ∈ past := by
  obtain ⟨call, known, added⟩ := List.mem_filterMap.mp h
  exact added_eq_some added ▸ known

theorem mem_results {j : Nat} (h : j ∈ returned tag past) : j ∈ past.filterMap Prod.snd :=
  List.mem_filterMap.mpr ⟨_, mem_returned h, rfl⟩

theorem mem_used : tag ∈ used past ↔ ∃ call ∈ past, MapCall.stored call = some tag := by
  unfold used
  rw [KeyedList.mem_firstUses, List.mem_filterMap]
  simp

theorem returned_eq_nil (unused : tag ∉ used past) : returned tag past = [] := by
  refine List.eq_nil_iff_forall_not_mem.mpr fun j known => unused ?_
  exact mem_used.mpr ⟨_, mem_returned known, rfl⟩

theorem lastSet_eq_none (unused : tag ∉ used past) : lastSet tag past = none := by
  unfold lastSet
  rw [List.getLast?_eq_none_iff, List.filterMap_eq_nil_iff]
  rintro ⟨c, group⟩ known
  cases c with
  | addGroup t => rfl
  | set t offset length =>
      refine if_neg fun same => unused ?_
      exact mem_used.mpr ⟨_, known, congrArg some same⟩

theorem returned_unique {j : Nat} (distinct : (past.filterMap Prod.snd).Nodup)
    (h : j ∈ returned tag past) (h' : j ∈ returned t past) : tag = t := by
  by_contra other
  have apart := List.pairwise_filterMap.mp distinct
  have differ : (MapCall.addGroup tag, some j) ≠ (MapCall.addGroup t, some j) := by
    intro same
    cases same
    exact other rfl
  have symmetric : Std.Symm fun a b : MapCall × Option Nat =>
      ∀ i, a.2 = some i → ∀ k, b.2 = some k → i ≠ k :=
    ⟨fun a b ne i hi k hk same => ne k hk i hi same.symm⟩
  exact apart.forall (mem_returned h) (mem_returned h') differ j rfl j rfl rfl

theorem nodup_returned (distinct : (past.filterMap Prod.snd).Nodup) (tag : FieldTag) :
    (returned tag past).Nodup := by
  refine List.pairwise_filterMap.mpr ((List.pairwise_filterMap.mp distinct).imp ?_)
  intro a b ne i hi k hk
  exact ne i (added_eq_some hi ▸ rfl) k (added_eq_some hk ▸ rfl)

end Past

namespace Heap

variable {β : Type} {h h' : Heap β} {m : Nat} {past : List (MapCall × Option Nat)}
  {l l' : FieldList} {tag t : FieldTag} {f x : Field} {nx : Option Nat}

section Growth

variable [MapBuffer β] {grown : Heap β} {fm last : FieldMap}

theorem grown_relist (carved : h.carve = some grown) (cell : h.cells m = some fm)
    (l : FieldList) : Grown h (grown.store m { fm with map := l }) m l none where
  size := by rw [length_store, length_carve carved]
  cell := ⟨fm.next, cell_store (lt_of_cell (cell_carve carved cell)) _⟩
  next j := by rw [next_relist (cell_carve carved cell), next_carve carved, if_neg nofun]

theorem grown_link {t : Nat} (carved : h.carve = some grown) (cell : h.cells m = some fm)
    (lastCell : h.cells t = some last) (apart : t ≠ m) (l : FieldList) :
    Grown h ((grown.store t { last with next := some h.maps.length }).store m
      { fm with map := l }) m l (some t) := by
  have inside := lt_of_cell (cell_carve carved lastCell)
  have parent : (grown.store t { last with next := some h.maps.length }).cells m = some fm := by
    rw [cells_store grown t m _ inside, if_neg apart, cell_carve carved cell]
  refine ⟨?_, ⟨fm.next, cell_store (lt_of_cell parent) _⟩, fun j => ?_⟩
  · rw [length_store, length_store, length_carve carved]
  · have same := congrFun (next_carve carved) j
    rw [next_relist parent, next_eq, cells_store grown t j _ inside, ← same]
    by_cases here : t = j
    · rw [if_pos here, if_pos (congrArg some here)]
      rfl
    · rw [if_neg here, if_neg fun same => here (Option.some.inj same), next_eq]

end Growth

namespace Follows

theorem get_eq (follows : h.Follows m past l) (tag : FieldTag) :
    h.get m tag = .ok (l.find tag) := by
  obtain ⟨nx, cell⟩ := follows.cell
  unfold get
  rw [deref_cell cell]
  rfl

theorem mem_used_iff (follows : h.Follows m past l) (tag : FieldTag) :
    tag ∈ used past ↔ ∃ f, l.find tag = some f := by
  rw [← follows.keys, KeyedList.mem_keys_iff]

theorem unused (follows : h.Follows m past l) (missing : l.find tag = none) :
    tag ∉ used past := by
  rw [← follows.keys]
  exact KeyedList.find_eq_none.mp missing

theorem chain (follows : h.Follows m past l) (tag : FieldTag) :
    Chain.Linked h.next (returned tag past).head? (returned tag past) := by
  cases found : l.find tag with
  | none =>
      rw [returned_eq_nil (follows.unused found)]
      exact .null
  | some f =>
      have linked := (follows.leads found).linked
      rwa [linked.eq_head] at linked

theorem length_returned_le (follows : h.Follows m past l) (tag : FieldTag) :
    (returned tag past).length ≤ h.maps.length := by
  have below : returned tag past ⊆ List.range h.maps.length := fun j known =>
    List.mem_range.mpr (follows.inside j (mem_results known)).2
  have count := ((nodup_returned follows.distinct tag).subperm below).length_le
  rwa [List.length_range] at count

theorem answers (follows : h.Follows m past l) : h.Answers m past where
  tags := by
    obtain ⟨nx, cell⟩ := follows.cell
    refine ⟨l.items, ?_, follows.keys, follows.keys ▸ l.distinct⟩
    unfold getFields
    rw [deref_cell cell]
    rfl
  get tag := by
    refine ⟨_, follows.get_eq tag, ?_⟩
    cases found : l.find tag with
    | none => rw [if_neg (follows.unused found), Option.map_none]
    | some f =>
        rw [if_pos ((follows.mem_used_iff tag).mpr ⟨f, found⟩), Option.map_some,
          (follows.leads found).place]
  getGroup tag index := by
    unfold getGroup
    simp only [follows.get_eq, bind, Except.bind]
    cases found : l.find tag with
    | none =>
        rw [returned_eq_nil (follows.unused found)]
        rfl
    | some f =>
        have linked := (follows.leads found).linked
        have reached := linked.nth_eq index
        dsimp only
        split
        · rename_i notGroup
          have first : f.groups = none := by simpa [Field.isGroup] using notGroup
          rw [first] at linked
          rw [linked.eq_nil]
          rfl
        · exact congrArg Except.ok reached
  groups tag f found := by
    have same := (Except.ok.inj ((follows.get_eq tag).symm.trans found))
    have leads := follows.leads same
    refine ⟨?_, leads.linked.eq_head, leads.tail⟩
    have enough := Nat.lt_succ_of_le (follows.length_returned_le tag)
    have counted := leads.linked.count_eq ParseFault.unfinishedLoop enough 0
    rwa [Nat.zero_add] at counted
  distinct := follows.distinct

theorem failed (follows : h.Follows m past l) (tag : FieldTag) :
    h.Follows m (past ++ [(.addGroup tag, none)]) l where
  cell := follows.cell
  keys := by rw [used_snoc]; exact follows.keys
  leads {t f} found := by
    obtain ⟨place, linked, tail⟩ := follows.leads found
    refine ⟨?_, ?_, ?_⟩
    · rw [lastSet_snoc]
      exact place
    · rwa [returned_snoc_none]
    · rwa [returned_snoc_none]
  inside := by
    rw [results_snoc_none]
    exact follows.inside
  distinct := by
    rw [results_snoc_none]
    exact follows.distinct

theorem leads_stored (follows : h.Follows m past l) {offset length : Nat}
    (stored : ((l.find tag).map fun old => Field.takeOver old
      (Field.plain tag offset length)).getD (Field.plain tag offset length) = f) :
    (f.offset, f.length) = (UInt16.ofNat offset, UInt16.ofNat length) ∧
      Chain.Linked h.next f.groups (returned tag past) ∧
      f.tail = (returned tag past).getLast? := by
  subst stored
  cases found : l.find tag with
  | none =>
      rw [returned_eq_nil (follows.unused found)]
      exact ⟨rfl, .null, rfl⟩
  | some old =>
      obtain ⟨-, linked, tail⟩ := follows.leads found
      exact ⟨Field.place_takeOver old _, Field.heads_takeOver linked tail tag offset length⟩

theorem set {offset length : UInt16} (follows : h.Follows m past l)
    (cell : h.cells m = some ⟨nx, l⟩)
    (put : KeyedList.put Field.takeOverMerge l
      (Field.plain tag offset.toNat length.toNat) = some l') :
    (h.store m ⟨nx, l'⟩).Follows m (past ++ [(.set tag offset length, none)]) l' where
  cell := ⟨nx, cell_store (lt_of_cell cell) _⟩
  keys := by
    rw [used_snoc, KeyedList.keys_put put, follows.keys]
    rfl
  leads {t f} found := by
    have next : (h.store m ⟨nx, l'⟩).next = h.next := next_relist cell l'
    rw [KeyedList.find_put put] at found
    split at found
    · rename_i same
      have here : tag = t := same
      subst here
      obtain ⟨place, linked, tail⟩ := follows.leads_stored (Option.some.inj found)
      refine ⟨?_, ?_, ?_⟩
      · rw [place, lastSet_snoc, MapCall.place, if_pos rfl, UInt16.ofNat_toNat,
          UInt16.ofNat_toNat]
        rfl
      · rwa [returned_snoc_none, next]
      · rwa [returned_snoc_none]
    · rename_i differs
      have other : tag ≠ t := differs
      obtain ⟨place, linked, tail⟩ := follows.leads found
      refine ⟨?_, ?_, ?_⟩
      · rw [lastSet_snoc, MapCall.place, if_neg other]
        exact place
      · rwa [returned_snoc_none, next]
      · rwa [returned_snoc_none]
  inside := by
    rw [results_snoc_none, length_store]
    exact follows.inside
  distinct := by
    rw [results_snoc_none]
    exact follows.distinct

/-- The chain of the tag that got a group, and those of the other tags. -/
theorem chain_added (follows : h.Follows m past l)
    (grown : h.Grown h' m l' (returned tag past).getLast?) :
    Chain.Linked h'.next ((returned tag past).head?.or (some h.maps.length))
        (returned tag past ++ [h.maps.length]) ∧
      ∀ t, tag ≠ t → Chain.Linked h'.next (returned t past).head? (returned t past) := by
  have chain := follows.chain tag
  have distinct := nodup_returned follows.distinct tag
  have below : ∀ {t j}, j ∈ returned t past → j < h.maps.length := fun known =>
    (follows.inside _ (mem_results known)).2
  have beyond : h.next h.maps.length = none := by
    rw [next_eq, cells_of_le (Nat.le_refl _)]
    rfl
  have links := grown.next
  constructor
  · rcases List.eq_nil_or_concat (returned tag past) with none_yet | ⟨ids, t, split⟩
    · rw [none_yet] at links ⊢
      refine Chain.linked_singleton ?_
      rw [links, if_neg nofun, beyond]
    · rw [List.concat_eq_append] at split
      have last : (ids ++ [t]).getLast? = some t := List.getLast?_concat
      have apart : t ≠ h.maps.length := by
        have old := below (split ▸ List.mem_append_right ids (List.mem_singleton_self t))
        omega
      rw [split, last] at links
      rw [split] at chain distinct ⊢
      have head : (ids ++ [t]).head?.or (some h.maps.length) = (ids ++ [t]).head? := by
        cases ids <;> rfl
      rw [head, List.append_assoc]
      refine chain.snoc distinct (fun b inside => ?_) ?_ ?_
      · rw [links, if_neg]
        intro same
        cases same
        exact List.disjoint_of_nodup_append distinct inside (List.mem_singleton_self t)
      · rw [links, if_pos rfl]
      · rw [links, if_neg fun same => apart (Option.some.inj same), beyond]
  · intro t other
    refine (follows.chain t).frame fun j known => ?_
    rw [links, if_neg]
    intro last
    exact other (returned_unique follows.distinct (List.mem_of_getLast? last) known)

theorem leads_added (follows : h.Follows m past l)
    (grown : h.Grown h' m l' (returned tag past).getLast?)
    (finds : ∀ t, l'.find t = if tag = t then some x else l.find t)
    (place : (x.offset, x.length) = (lastSet tag past).getD (0, 0))
    (head : x.groups = (returned tag past).head?.or (some h.maps.length))
    (tail : x.tail = some h.maps.length) (found : l'.find t = some f) :
    h'.Leads t (past ++ [(.addGroup tag, some h.maps.length)]) f := by
  obtain ⟨here, others⟩ := follows.chain_added grown
  rw [finds] at found
  split at found
  · rename_i same
    subst same
    cases found
    refine ⟨?_, ?_, ?_⟩
    · rw [lastSet_snoc]
      exact place
    · rw [returned_snoc, MapCall.added, if_pos rfl, head]
      exact here
    · rw [returned_snoc, MapCall.added, if_pos rfl, tail]
      exact List.getLast?_concat.symm
  · rename_i other
    obtain ⟨place', linked, tail'⟩ := follows.leads found
    have same : returned t (past ++ [(.addGroup tag, some h.maps.length)]) = returned t past := by
      rw [returned_snoc, MapCall.added, if_neg other]
      exact List.append_nil _
    refine ⟨?_, ?_, ?_⟩
    · rw [lastSet_snoc]
      exact place'
    · rw [same, linked.eq_head]
      exact others t other
    · rwa [same]

theorem added (follows : h.Follows m past l)
    (grown : h.Grown h' m l' (returned tag past).getLast?)
    (keys : l'.keys = if tag ∈ l.keys then l.keys else l.keys ++ [tag])
    (finds : ∀ t, l'.find t = if tag = t then some x else l.find t)
    (place : (x.offset, x.length) = (lastSet tag past).getD (0, 0))
    (head : x.groups = (returned tag past).head?.or (some h.maps.length))
    (tail : x.tail = some h.maps.length) :
    h'.Follows m (past ++ [(.addGroup tag, some h.maps.length)]) l' where
  cell := grown.cell
  keys := by
    rw [used_snoc, keys, follows.keys]
    rfl
  leads found := follows.leads_added grown finds place head tail found
  inside j known := by
    obtain ⟨nx, cell⟩ := follows.cell
    have inside := lt_of_cell cell
    rw [results_snoc, List.mem_append, Option.toList_some, List.mem_singleton] at known
    rw [grown.size]
    rcases known with old | rfl
    · have bounds := follows.inside j old
      omega
    · omega
  distinct := by
    rw [results_snoc, List.nodup_append]
    refine ⟨follows.distinct, List.nodup_singleton _, fun i hi k hk same => ?_⟩
    rw [Option.toList_some, List.mem_singleton] at hk
    have old := (follows.inside i hi).2
    omega

section Calls

variable [MapBuffer β] {grown : Heap β}

theorem exists_added_unknown (follows : h.Follows m past l) (carved : h.carve = some grown)
    (missing : l.find tag = none)
    (put : KeyedList.put Field.takeOverMerge l (Field.ofGroups tag 0 0 h.maps.length) = some l') :
    ∃ h', h.addGroup m tag = .ok (some h.maps.length, h') ∧
      h'.Follows m (past ++ [(.addGroup tag, some h.maps.length)]) l' := by
  obtain ⟨nx, cell⟩ := follows.cell
  have unused := follows.unused missing
  have none_yet := returned_eq_nil unused
  refine ⟨_, addGroup_unknown carved cell missing put,
    follows.added (x := Field.ofGroups tag 0 0 h.maps.length) ?_ (KeyedList.keys_put put)
      (fun t => ?_) ?_ ?_ rfl⟩
  · rw [none_yet]
    exact grown_relist carved cell l'
  · rw [KeyedList.find_put put]
    change (if tag = t then _ else _) = _
    split
    · rename_i same
      rw [← same, missing]
      rfl
    · rfl
  · rw [lastSet_eq_none unused]
    rfl
  · rw [none_yet]
    rfl

theorem exists_grown (follows : h.Follows m past l) (carved : h.carve = some grown)
    (found : l.find tag = some f)
    (put : KeyedList.put Field.takeOverMerge l (f.extended h.maps.length) = some l') :
    ∃ h', h.addGroup m tag = .ok (some h.maps.length, h') ∧ h.Grown h' m l' f.tail := by
  obtain ⟨nx, cell⟩ := follows.cell
  obtain ⟨-, linked, tail⟩ := follows.leads found
  cases first : f.groups with
  | none =>
      rw [first] at linked
      have noTail : f.tail = none := by rw [tail, linked.eq_nil, List.getLast?_nil]
      rw [noTail]
      exact ⟨_, addGroup_first carved cell found first put, grown_relist carved cell l'⟩
  | some head =>
      rw [first] at linked
      obtain ⟨t, last⟩ := linked.exists_last
      have young := follows.inside t (mem_results (List.mem_of_getLast? last))
      obtain ⟨fmt, lastCell⟩ := exists_cell young.2
      have apart : t ≠ m := Nat.ne_of_gt young.1
      rw [last] at tail
      rw [tail]
      exact ⟨_, addGroup_next carved cell found (by rw [first]; rfl) tail lastCell apart put,
        grown_link carved cell lastCell apart l'⟩

theorem exists_added_known (follows : h.Follows m past l) (carved : h.carve = some grown)
    (found : l.find tag = some f)
    (put : KeyedList.put Field.takeOverMerge l (f.extended h.maps.length) = some l') :
    ∃ h', h.addGroup m tag = .ok (some h.maps.length, h') ∧
      h'.Follows m (past ++ [(.addGroup tag, some h.maps.length)]) l' := by
  obtain ⟨place, linked, tail⟩ := follows.leads found
  have held : f.tag = tag := KeyedList.key_of_find found
  obtain ⟨h', made, grown'⟩ := follows.exists_grown carved found put
  refine ⟨h', made, follows.added (x := f.extended h.maps.length) (tail ▸ grown') ?_
    (FieldList.find_put_extended found put) place ?_ rfl⟩
  · rw [KeyedList.keys_put put, ← held]
    rfl
  · rw [← linked.eq_head]
    rfl

theorem exists_call (follows : h.Follows m past l) {bound : List FieldTag}
    (few : bound.length ≤ fixMsgMaxFieldCount) (covered : l.keys ⊆ bound) {c : MapCall}
    (inside : c.tag ∈ bound) :
    ∃ group h' l', h.call m c = .ok (group, h') ∧ h'.Follows m (past ++ [(c, group)]) l' ∧
      l'.keys ⊆ bound := by
  cases c with
  | set tag offset length =>
      obtain ⟨nx, cell⟩ := follows.cell
      obtain ⟨l', put, covered'⟩ := KeyedList.exists_put (m := Field.takeOverMerge)
        (x := Field.plain tag offset.toNat length.toNat) bound few covered inside
      refine ⟨none, _, l', ?_, follows.set cell put, covered'⟩
      unfold call
      simp only [set_cell cell put, bind, Except.bind]
      rfl
  | addGroup tag =>
      cases carved : h.carve with
      | none => exact ⟨none, h, l, addGroup_refused carved m tag, follows.failed tag, covered⟩
      | some grown =>
          cases found : l.find tag with
          | none =>
              obtain ⟨l', put, covered'⟩ := KeyedList.exists_put (m := Field.takeOverMerge)
                (x := Field.ofGroups tag 0 0 h.maps.length) bound few covered inside
              obtain ⟨h', made, later⟩ := follows.exists_added_unknown carved found put
              exact ⟨_, h', l', made, later, covered'⟩
          | some f =>
              have held : f.tag = tag := KeyedList.key_of_find found
              have known : (f.extended h.maps.length).tag ∈ bound := held.symm ▸ inside
              obtain ⟨l', put, covered'⟩ := KeyedList.exists_put (m := Field.takeOverMerge)
                bound few covered known
              obtain ⟨h', made, later⟩ := follows.exists_added_known carved found put
              exact ⟨_, h', l', made, later, covered'⟩

/-- A run of calls is served, as long as the tags are few. -/
theorem exists_calls {bound : List FieldTag} (few : bound.length ≤ fixMsgMaxFieldCount)
    {cs : List MapCall} (inside : ∀ c ∈ cs, c.tag ∈ bound) (follows : h.Follows m past l)
    (covered : l.keys ⊆ bound) :
    ∃ more h' l', calls m cs h = .ok (more, h') ∧ more.map Prod.fst = cs ∧
      h'.Follows m (past ++ more) l' := by
  induction cs generalizing h past l with
  | nil => exact ⟨[], h, l, rfl, rfl, (List.append_nil past).symm ▸ follows⟩
  | cons c cs ih =>
      obtain ⟨group, h₁, l₁, made, follows₁, covered₁⟩ :=
        follows.exists_call few covered (inside c List.mem_cons_self)
      obtain ⟨more, h', l', rest, same, follows'⟩ :=
        ih (fun c' later => inside c' (List.mem_cons_of_mem c later)) follows₁ covered₁
      refine ⟨(c, group) :: more, h', l', ?_, ?_, ?_⟩
      · simp only [calls, made, rest, bind, Except.bind]
        rfl
      · rw [List.map_cons, same]
      · rwa [List.append_assoc, List.singleton_append] at follows'

end Calls

end Follows

theorem follows_fresh (fresh : h.cells m = some ⟨nx, KeyedList.empty⟩) :
    h.Follows m [] KeyedList.empty where
  cell := ⟨nx, fresh⟩
  keys := rfl
  leads found := by cases found
  inside j known := by cases known
  distinct := List.nodup_nil

theorem Follows.getGroup_set (follows : h.Follows m past l) {offset length : UInt16}
    (stored : h.set m (Field.plain tag offset.toNat length.toNat) = .ok h') (t : FieldTag)
    (index : Nat) : h'.getGroup m t index = h.getGroup m t index := by
  obtain ⟨nx, cell⟩ := follows.cell
  obtain ⟨fm, l', cell', put, rfl⟩ := set_inv stored
  rw [cell] at cell'
  cases cell'
  rw [(follows.set cell put).answers.getGroup, follows.answers.getGroup, returned_snoc_none]

theorem carve_placed {h : Heap PlacedBuffer} :
    h.carve = none ↔ h.buf.capacity.toNat < h.buf.bytesAllocated.toNat + sizeofFieldMap := by
  have refused := h.buf.placed.allocate_eq_none (Nat.le_of_eq toNat_sizeofFieldMap)
  rw [toNat_sizeofFieldMap] at refused
  rw [← refused, carve, Option.map_eq_none_iff]
  unfold MapBuffer.allocate instMapBufferPlacedBuffer
  dsimp only
  split
  · rename_i none_left
    exact iff_of_true rfl none_left
  · rename_i granted
    refine iff_of_false (fun same => ?_) fun same => ?_
    · cases same
    · cases granted.symm.trans same

/-- For every sequence of calls on a new field map with at most 64 tags: all of them return,
and behind them the map answers by what they were and what they returned. A call of `addGroup`
that returns null is one for which the buffer has no room, and changes nothing; a call of
`set` leaves all groups as they are. -/
theorem calls_answered {h : Heap PlacedBuffer}
    (fresh : h.maps[m]? = some ⟨nx, KeyedList.empty⟩) (cs : List MapCall)
    (few : (cs.map MapCall.tag).dedup.length ≤ fixMsgMaxFieldCount) :
    ∃ past h', calls m cs h = .ok (past, h') ∧ past.map Prod.fst = cs ∧ h'.Answers m past ∧
      (∀ tag h₁, h'.addGroup m tag = .ok (none, h₁) ↔
        h₁ = h' ∧ h'.buf.capacity.toNat < h'.buf.bytesAllocated.toNat + sizeofFieldMap) ∧
      ∀ tag offset length group h₁, h'.call m (.set tag offset length) = .ok (group, h₁) →
        ∀ t index, h₁.getGroup m t index = h'.getGroup m t index := by
  have inside : ∀ c ∈ cs, c.tag ∈ (cs.map MapCall.tag).dedup := fun c known =>
    List.mem_dedup.mpr (List.mem_map_of_mem known)
  obtain ⟨past, h', l, made, same, follows⟩ :=
    (follows_fresh fresh).exists_calls few inside (List.nil_subset _)
  rw [List.nil_append] at follows
  refine ⟨past, h', made, same, follows.answers, fun tag h₁ => ?_, ?_⟩
  · rw [addGroup_eq_none, carve_placed]
  · intro tag offset length group h₁ again t index
    obtain ⟨h₂, stored, ended⟩ := Loop.exists_of_bind again
    cases ended
    rw [follows.getGroup_set stored]

def twoGroups : Heap PlacedBuffer where
  buf := ⟨.new 4096 4000, .new (by decide)⟩
  maps := [FieldMap.new]

/-- Two groups among fields, and no room for the third. -/
theorem calls_answered_two_groups :
    ∃ past h', calls 0 [.addGroup .noLegs, .set .orderQty 10 3, .set .noLegs 4 1,
        .addGroup .noLegs, .addGroup .noLegs] twoGroups = .ok (past, h') ∧
      h'.getGroup 0 .noLegs 1 = .ok (some 2) ∧ h'.getGroup 0 .noLegs 2 = .ok none := by
  obtain ⟨past, h', made, -, answers, -⟩ := calls_answered (h := twoGroups) (m := 0) rfl
    [.addGroup .noLegs, .set .orderQty 10 3, .set .noLegs 4 1, .addGroup .noLegs,
      .addGroup .noLegs] (by decide)
  have run : calls 0 [.addGroup .noLegs, .set .orderQty 10 3, .set .noLegs 4 1, .addGroup .noLegs,
      .addGroup .noLegs] twoGroups =
        .ok ([(.addGroup .noLegs, some 1), (.set .orderQty 10 3, none), (.set .noLegs 4 1, none),
          (.addGroup .noLegs, some 2), (.addGroup .noLegs, none)], _) := rfl
  rw [made] at run
  cases run
  exact ⟨_, _, made, answers.getGroup .noLegs 1, answers.getGroup .noLegs 2⟩

end Heap

end FastLittleMarket.Fix
