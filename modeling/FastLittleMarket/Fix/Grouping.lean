import FastLittleMarket.Fix.Forest
import FastLittleMarket.Fix.Numbers

/-!
The group step on an arena that shows a forest. Behind a field a group is due, or a group
is closed, or nothing happens; a group that is due is opened while there is room, and is
null from then on.
-/

namespace FastLittleMarket.Fix

variable {maxMessageSize : Nat}

/-- The first definition that a tag begins or ends a group of. -/
def concerned (groups : Option (List GroupDef)) (tag : FieldTag) : Option GroupDef :=
  (groups.getD []).find? fun gd => gd.groupCountTag = tag ∨ gd.groupEndTag = tag

/-- The number that stands at a place, over unbounded integers. -/
def numberAt (bytes : List UInt8) (p : UInt16 × UInt16) : Int :=
  numberOf (bytesFrom bytes p.1.toNat p.2.toNat)

def announces (input : List UInt8) (tag : FieldTag) (p : UInt16 × UInt16) : Int :=
  if tag = .invalid then 0 else numberAt input p

def Countable (input : List UInt8) (tag : FieldTag) (p : UInt16 × UInt16) : Prop :=
  tag = .invalid ∨ ReadsInt input p.1.toNat p.2.toNat

/-- A group of the field `t` of the map `p` is due behind a field `tag` of the map `m`, with
the maps that are then around it. -/
inductive Due (input : List UInt8) (F : Forest) (m : Nat) (tag : FieldTag) (stack : List Nat)
    (groups : Option (List GroupDef)) : Nat → FieldTag → List Nat → Prop
  | first {gd : GroupDef} (found : concerned groups tag = some gd)
      (counts : gd.groupCountTag = tag) : Due input F m tag stack groups m tag (m :: stack)
  | further {gd : GroupDef} {parent : Nat} {below : List Nat} {p : UInt16 × UInt16}
      (found : concerned groups tag = some gd) (ends : gd.groupCountTag ≠ tag)
      (top : stack = parent :: below) (known : F.place parent gd.groupCountTag = some p)
      (reads : Countable input gd.groupCountTag p)
      (fewer : ((F.groups parent gd.groupCountTag).length : Int) <
        announces input gd.groupCountTag p) :
      Due input F m tag stack groups parent gd.groupCountTag stack

/-- What the group definitions make of a field `tag` that the map `m` has just got. -/
inductive Grouped (input : List UInt8) (c : Cursor) (a : Arena maxMessageSize) (F : Forest)
    (m : Nat) (tag : FieldTag) (stack : List Nat) (groups : Option (List GroupDef)) :
    Except ParseFault (ParseState maxMessageSize) → Prop
  | stays (plain : ∀ gd, concerned groups tag = some gd → gd.groupCountTag ≠ tag) :
      Grouped input c a F m tag stack groups (.ok ⟨c, a, some m, stack, groups⟩)
  | grows {p : Nat} {t : FieldTag} {around : List Nat} {a' : Arena maxMessageSize}
      (due : Due input F m tag stack groups p t around) (inside : p < F.size)
      (room : Arena.RoomFor maxMessageSize (F.size + 1)) (shows : a'.Shows (F.graft p t inside)) :
      Grouped input c a F m tag stack groups (.ok ⟨c, a', some F.size, around, groups⟩)
  | lost {p : Nat} {t : FieldTag} {around : List Nat}
      (due : Due input F m tag stack groups p t around)
      (full : ¬ Arena.RoomFor maxMessageSize (F.size + 1)) :
      Grouped input c a F m tag stack groups (.ok ⟨c, a, none, around, groups⟩)
  | closes {parent : Nat} {below : List Nat}
      (plain : ∀ gd, concerned groups tag = some gd → gd.groupCountTag ≠ tag)
      (top : stack = parent :: below) :
      Grouped input c a F m tag stack groups (.ok ⟨c, a, some parent, below, groups⟩)
  | unread {gd : GroupDef} {parent : Nat} {below : List Nat} {p : UInt16 × UInt16}
      {e : ParseFault} (found : concerned groups tag = some gd) (ends : gd.groupCountTag ≠ tag)
      (top : stack = parent :: below) (known : F.place parent gd.groupCountTag = some p)
      (unreadable : ¬ Countable input gd.groupCountTag p) (numeric : e.Numeric) :
      Grouped input c a F m tag stack groups (.error e)

inductive Extends (input : List UInt8) (maxMessageSize : Nat) (F : Forest) (m : Nat)
    (tag : FieldTag) (stack : List Nat) (groups : Option (List GroupDef)) : Forest → Prop
  | same (quiet : Arena.RoomFor maxMessageSize (F.size + 1) →
      ∀ gd, concerned groups tag = some gd → gd.groupCountTag ≠ tag) :
      Extends input maxMessageSize F m tag stack groups F
  | graft {p : Nat} {t : FieldTag} {around : List Nat}
      (due : Due input F m tag stack groups p t around) (inside : p < F.size)
      (room : Arena.RoomFor maxMessageSize (F.size + 1)) :
      Extends input maxMessageSize F m tag stack groups (F.graft p t inside)

section Groups

variable {input : List UInt8} {c : Cursor} {a : Arena maxMessageSize} {F : Forest} {m : Nat}
  {tag : FieldTag} {stack : List Nat} {groups : Option (List GroupDef)}

theorem applyGroups_eq (st : ParseState maxMessageSize) (map : Nat) (tag : FieldTag)
    (gds : List GroupDef) :
    applyGroups map tag st gds =
      match concerned (some gds) tag with
      | none => .ok st
      | some gd =>
          if gd.groupCountTag = tag then do
            let (group, arena) ← st.arena.addGroup map tag
            pure { st with map := group, arena := arena, stack := map :: st.stack }
          else closeGroup st gd := by
  induction gds with
  | nil => rfl
  | cons gd gds ih =>
      rw [applyGroups]
      unfold concerned
      rw [Option.getD_some, List.find?_cons]
      by_cases counts : gd.groupCountTag = tag
      · simp only [counts, true_or, decide_true, if_true]
      · by_cases ends : gd.groupEndTag = tag
        · simp only [counts, ends, or_true, decide_true, if_true, if_false]
        · simp only [counts, ends, or_self, decide_false, if_false]
          exact ih

theorem groupStep_eq (map : Nat) (tag : FieldTag) (st : ParseState maxMessageSize) :
    groupStep map tag st =
      match concerned st.msgGroups tag with
      | none => .ok st
      | some gd =>
          if gd.groupCountTag = tag then do
            let (group, arena) ← st.arena.addGroup map tag
            pure { st with map := group, arena := arena, stack := map :: st.stack }
          else closeGroup st gd := by
  obtain ⟨c, a, current, stack, groups⟩ := st
  cases groups with
  | none => rfl
  | some gds => exact applyGroups_eq ⟨c, a, current, stack, some gds⟩ map tag gds

theorem getIntOf_counted {f : Field} {p : UInt16 × UInt16} (key : f.tag = tag)
    (place : p = (f.offset, f.length)) (reads : Countable input tag p) :
    ∃ v, Arena.getIntOf input f = .ok v ∧ v.getD 0 = announces input tag p := by
  unfold Arena.getIntOf Field.isEmpty announces
  by_cases unknown : tag = .invalid
  · rw [if_pos unknown, if_pos (by rw [key, unknown]; rfl)]
    exact ⟨none, rfl, rfl⟩
  · rw [if_neg unknown, if_neg (by rw [key]; simpa using unknown)]
    rcases reads with invalid | reads
    · exact absurd invalid unknown
    · subst place
      rw [reads.parseInt_eq]
      exact ⟨_, rfl, rfl⟩

theorem getIntOf_uncounted {f : Field} {p : UInt16 × UInt16} (key : f.tag = tag)
    (place : p = (f.offset, f.length)) (unreadable : ¬ Countable input tag p) :
    ∃ e, Arena.getIntOf input f = .error e ∧ e.Numeric := by
  unfold Countable at unreadable
  rw [not_or] at unreadable
  obtain ⟨known, illegible⟩ := unreadable
  subst place
  obtain ⟨e, fails, numeric⟩ := parseInt_fails illegible
  refine ⟨e, ?_, numeric⟩
  unfold Arena.getIntOf Field.isEmpty
  rw [if_neg (by rw [key]; simpa using known), fails]
  rfl

theorem byteAt_prefix {xs ys : List UInt8} (part : xs <+: ys) {i : Nat} (inside : i < xs.length) :
    byteAt xs i = byteAt ys i := by
  obtain ⟨z, rfl⟩ := part
  exact (byteAt_append_left inside).symm

/-- A field whose place has been read is the same number in the buffer and in the stream. -/
theorem getIntOf_prefix {bytes : List UInt8} (part : bytes <+: input) {f : Field}
    (inside : f.offset.toNat + f.length.toNat < bytes.length) :
    Arena.getIntOf bytes f = Arena.getIntOf input f := by
  unfold Arena.getIntOf
  rw [parseInt_congr fun i le at_place => byteAt_prefix part (by omega)]

/-- The places of all fields have been read. -/
def Placed (F : Forest) (length : Nat) : Prop :=
  ∀ (m : Nat) (tag : FieldTag) (p : UInt16 × UInt16), F.place m tag = some p →
    p.1.toNat + p.2.toNat < length

theorem addGroup_due {p : Nat} {t : FieldTag} (shows : a.Shows F) {place : UInt16 × UInt16}
    (known : F.place p t = some place) (inside : p < F.size) :
    (Arena.RoomFor maxMessageSize (F.size + 1) ∧
      ∃ a' : Arena maxMessageSize, a.addGroup p t = .ok (some F.size, a') ∧
        a'.Shows (F.graft p t inside)) ∨
      (¬ Arena.RoomFor maxMessageSize (F.size + 1) ∧ a.addGroup p t = .ok (none, a)) := by
  by_cases room : Arena.RoomFor maxMessageSize (F.size + 1)
  · exact .inl ⟨room, shows.addGroup known inside room⟩
  · exact .inr ⟨room, shows.addGroup_full room p t⟩

theorem closeGroup_counted {gd : GroupDef} {parent : Nat} {below : List Nat}
    {p : UInt16 × UInt16} {current : Option Nat} (shows : a.Shows F) (part : c.bytes <+: input)
    (placed : Placed F c.bytes.length)
    (known : F.place parent gd.groupCountTag = some p)
    (reads : Countable input gd.groupCountTag p) :
    closeGroup ⟨c, a, current, parent :: below, groups⟩ gd =
      if announces input gd.groupCountTag p ≤
          ((F.groups parent gd.groupCountTag).length : Int) then
        .ok ⟨c, a, some parent, below, groups⟩
      else
        (do
          let (group, arena) ← a.addGroup parent gd.groupCountTag
          pure ⟨c, arena, group, parent :: below, groups⟩) := by
  obtain ⟨f, found, same, key, count⟩ := shows.exists_get known
  obtain ⟨v, read, number⟩ := getIntOf_counted key same reads
  have near := placed _ _ _ known
  rw [same] at near
  rw [← getIntOf_prefix part near] at read
  rw [closeGroup_eq ⟨c, a, current, parent :: below, groups⟩ rfl found read count, number]

theorem closeGroup_unread {gd : GroupDef} {parent : Nat} {below : List Nat}
    {p : UInt16 × UInt16} {current : Option Nat} (shows : a.Shows F) (part : c.bytes <+: input)
    (placed : Placed F c.bytes.length)
    (known : F.place parent gd.groupCountTag = some p)
    (unreadable : ¬ Countable input gd.groupCountTag p) :
    ∃ e, closeGroup ⟨c, a, current, parent :: below, groups⟩ gd = .error e ∧ e.Numeric := by
  obtain ⟨f, found, same, key, -⟩ := shows.exists_get known
  obtain ⟨e, fails, numeric⟩ := getIntOf_uncounted key same unreadable
  have near := placed _ _ _ known
  rw [same] at near
  rw [← getIntOf_prefix part near] at fails
  refine ⟨e, ?_, numeric⟩
  unfold closeGroup
  simp only [found, fails, bind, Except.bind]

theorem closeGroup_uncounted {gd : GroupDef} {parent : Nat} {below : List Nat}
    {current : Option Nat} (shows : a.Shows F) (inside : parent < F.size)
    (missing : F.place parent gd.groupCountTag = none) :
    closeGroup ⟨c, a, current, parent :: below, groups⟩ gd =
      .ok ⟨c, a, current, parent :: below, groups⟩ := by
  unfold closeGroup
  simp only [shows.get_none inside missing, bind, Except.bind, pure, Except.pure]

/-- A group that is due is opened if there is room for it, and null otherwise. -/
theorem Due.groupStep {p : Nat} {t : FieldTag} {around : List Nat} {own : UInt16 × UInt16}
    (due : Due input F m tag stack groups p t around) (shows : a.Shows F)
    (part : c.bytes <+: input) (placed : Placed F c.bytes.length) (current : m < F.size)
    (outer : ∀ j ∈ stack, j < F.size) (stored : F.place m tag = some own) :
    (Arena.RoomFor maxMessageSize (F.size + 1) ∧ ∃ a' inside,
      groupStep m tag ⟨c, a, some m, stack, groups⟩ =
          .ok ⟨c, a', some F.size, around, groups⟩ ∧ a'.Shows (F.graft p t inside)) ∨
      (¬ Arena.RoomFor maxMessageSize (F.size + 1) ∧
        groupStep m tag ⟨c, a, some m, stack, groups⟩ = .ok ⟨c, a, none, around, groups⟩) := by
  cases due with
  | @first gd found counts =>
      rcases addGroup_due shows stored current with ⟨room, a', added, shows'⟩ | ⟨full, added⟩
      · refine .inl ⟨room, a', current, ?_, shows'⟩
        simp only [groupStep_eq, found, counts, if_true, added, bind, Except.bind, pure,
          Except.pure]
      · refine .inr ⟨full, ?_⟩
        simp only [groupStep_eq, found, counts, if_true, added, bind, Except.bind, pure,
          Except.pure]
  | @further gd _ below place found ends top known reads fewer =>
      subst top
      have inside := outer p (by simp)
      have closed : closeGroup ⟨c, a, some m, p :: below, groups⟩ gd = _ :=
        closeGroup_counted shows part placed known reads
      rw [if_neg (Int.not_le.mpr fewer)] at closed
      rcases addGroup_due shows known inside with ⟨room, a', added, shows'⟩ | ⟨full, added⟩
      · refine .inl ⟨room, a', inside, ?_, shows'⟩
        simp only [groupStep_eq, found, ends, if_false, closed, added, bind, Except.bind, pure,
          Except.pure]
      · refine .inr ⟨full, ?_⟩
        simp only [groupStep_eq, found, ends, if_false, closed, added, bind, Except.bind, pure,
          Except.pure]

theorem groupStep_grouped {own : UInt16 × UInt16} (shows : a.Shows F) (part : c.bytes <+: input)
    (placed : Placed F c.bytes.length) (current : m < F.size)
    (outer : ∀ j ∈ stack, j < F.size) (stored : F.place m tag = some own) :
    Grouped input c a F m tag stack groups (groupStep m tag ⟨c, a, some m, stack, groups⟩) := by
  have due : ∀ {p t around}, Due input F m tag stack groups p t around →
      Grouped input c a F m tag stack groups
        (groupStep m tag ⟨c, a, some m, stack, groups⟩) := by
    intro p t around due
    rcases due.groupStep shows part placed current outer stored with
      ⟨room, a', inside, step, shows'⟩ | ⟨full, step⟩
    · rw [step]
      exact .grows due inside room shows'
    · rw [step]
      exact .lost due full
  cases found : concerned groups tag with
  | none =>
      have step : groupStep m tag ⟨c, a, some m, stack, groups⟩ =
          .ok ⟨c, a, some m, stack, groups⟩ := by
        simp only [groupStep_eq, found]
      rw [step]
      refine .stays fun gd other => ?_
      rw [found] at other
      cases other
  | some gd =>
      by_cases counts : gd.groupCountTag = tag
      · exact due (.first found counts)
      · have plain : ∀ gd', concerned groups tag = some gd' → gd'.groupCountTag ≠ tag := by
          intro gd' other
          rw [found] at other
          cases other
          exact counts
        have step : groupStep m tag ⟨c, a, some m, stack, groups⟩ =
            closeGroup ⟨c, a, some m, stack, groups⟩ gd := by
          simp only [groupStep_eq, found, counts, if_false]
        cases stack with
        | nil =>
            rw [step]
            exact .stays plain
        | cons parent below =>
            have inside := outer parent (by simp)
            cases known : F.place parent gd.groupCountTag with
            | none =>
                rw [step, closeGroup_uncounted shows inside known]
                exact .stays plain
            | some p =>
                by_cases reads : Countable input gd.groupCountTag p
                · by_cases enough : announces input gd.groupCountTag p ≤
                      ((F.groups parent gd.groupCountTag).length : Int)
                  · rw [step, closeGroup_counted shows part placed known reads,
                      if_pos enough]
                    exact .closes plain rfl
                  · exact due (.further found counts rfl known reads (Int.not_le.mp enough))
                · have unread : ∃ e, closeGroup ⟨c, a, some m, parent :: below, groups⟩ gd =
                      .error e ∧ e.Numeric :=
                    closeGroup_unread shows part placed known reads
                  obtain ⟨e, fails, numeric⟩ := unread
                  rw [step, fails]
                  exact .unread found counts rfl known reads numeric

end Groups

end FastLittleMarket.Fix
