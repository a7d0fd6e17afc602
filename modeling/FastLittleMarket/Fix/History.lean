import FastLittleMarket.Fix.Visits

/-!
The history of a parse: which field was sent to which map in which round. The place a map
has for a tag is that of the last field of the tag sent to it, in every state and in the
result.
-/

namespace FastLittleMarket.Fix

variable {maxMessageSize : Nat}

/-- The round `j`, which starts in the state `st`, sends the field `f` to the map `m`. -/
structure Sends (input : List UInt8) (msg : FixMessage maxMessageSize) (defs : GroupDefs)
    (j : Nat) (st : ParseState maxMessageSize) (m : Nat) (f : RawField) : Prop where
  visits : FixMessage.Visits input msg defs j st
  meets : ∃ rest, st.Meets f rest
  current : st.map = some m

/-- It is the last of the rounds before `k` that send a field of this tag to this map. -/
structure Latest (input : List UInt8) (msg : FixMessage maxMessageSize) (defs : GroupDefs)
    (k j : Nat) (st : ParseState maxMessageSize) (m : Nat) (f : RawField) : Prop where
  sends : Sends input msg defs j st m f
  before : j < k
  last : ∀ {i : Nat} {st' : ParseState maxMessageSize} {g : RawField}, j < i → i < k →
    Sends input msg defs i st' m g → g.tag ≠ f.tag

/-- It is the last one of the parse that sends this tag to this map. -/
structure Final (input : List UInt8) (msg : FixMessage maxMessageSize) (defs : GroupDefs)
    (j : Nat) (st : ParseState maxMessageSize) (m : Nat) (f : RawField) : Prop where
  sends : Sends input msg defs j st m f
  last : ∀ {i : Nat} {st' : ParseState maxMessageSize} {g : RawField}, j < i →
    Sends input msg defs i st' m g → g.tag ≠ f.tag

variable {input : List UInt8} {msg msg' : FixMessage maxMessageSize} {defs : GroupDefs}
  {j k m : Nat} {st st' : ParseState maxMessageSize} {f : RawField} {tag : FieldTag}
  {F F' : Forest} {a : Arena maxMessageSize} {p : UInt16 × UInt16} {z : List UInt8}

theorem Sends.unique {m' : Nat} {f' : RawField} (h : Sends input msg defs j st m f)
    (h' : Sends input msg defs j st' m' f') : st = st' ∧ m = m' ∧ f = f' := by
  obtain rfl := h.visits.unique h'.visits
  obtain ⟨rest, meets⟩ := h.meets
  obtain ⟨rest', meets'⟩ := h'.meets
  obtain ⟨rfl, rfl⟩ := meets.unique meets'
  exact ⟨rfl, Option.some.inj (h.current.symm.trans h'.current), rfl⟩

theorem Latest.unique {i : Nat} {g : RawField} (h : Latest input msg defs k j st m f)
    (h' : Latest input msg defs k i st' m g) (same : f.tag = g.tag) : st = st' ∧ f = g := by
  rcases Nat.lt_trichotomy i j with before | rfl | after
  · exact absurd same (h'.last before h.before h.sends)
  · obtain ⟨states, -, fields⟩ := h.sends.unique h'.sends
    exact ⟨states, fields⟩
  · exact absurd same.symm (h.last after h'.before h'.sends)

theorem Final.latest (h : Final input msg defs j st m f)
    (last : ∀ {i : Nat} {st : ParseState maxMessageSize}, FixMessage.Visits input msg defs i st →
      i < k) : Latest input msg defs k j st m f :=
  ⟨h.sends, last h.sends.visits, fun later _ sends => h.last later sends⟩

theorem Latest.final (h : Latest input msg defs k j st m f)
    (last : ∀ {i : Nat} {st : ParseState maxMessageSize}, FixMessage.Visits input msg defs i st →
      i < k) : Final input msg defs j st m f :=
  ⟨h.sends, fun later sends => h.last later (last sends.visits) sends⟩

theorem Arena.Shows.place_unique (h : a.Shows F) (h' : a.Shows F') (m : Nat) (tag : FieldTag) :
    F.place m tag = F'.place m tag := by
  by_cases inside : m < F.size
  · obtain ⟨fm, cell⟩ := h.exists_cell inside
    cases found : fm.map.find tag with
    | none => rw [(h.absent cell found).1, (h'.absent cell found).1]
    | some f => rw [(h.present cell found).1, (h'.present cell found).1]
  · have same : F.size = F'.size := h.size.symm.trans h'.size
    rw [h.beyond m tag (Nat.le_of_not_lt inside),
      h'.beyond m tag (same ▸ Nat.le_of_not_lt inside)]

theorem Extends.place_eq {stack : List Nat} {groups : Option (List GroupDef)}
    (h : Extends input maxMessageSize F m tag stack groups F') : F'.place = F.place := by
  cases h <;> rfl

/-- The places of the forest are those of the latest fields before the round `k`. -/
structure Told (input : List UInt8) (msg : FixMessage maxMessageSize) (defs : GroupDefs) (k : Nat)
    (F : Forest) : Prop where
  unsent : ∀ {m : Nat} {tag : FieldTag}, F.place m tag = none →
    ∀ {i : Nat} {st : ParseState maxMessageSize} {g : RawField}, i < k →
      Sends input msg defs i st m g → g.tag ≠ tag
  sent : ∀ {m : Nat} {tag : FieldTag} {p : UInt16 × UInt16}, F.place m tag = some p →
    ∃ j st f, Latest input msg defs k j st m f ∧ f.tag = tag ∧ p = placeOf st.cursor.scanned f

namespace Told

theorem congr (h : Told input msg defs k F) (same : F'.place = F.place) :
    Told input msg defs k F' where
  unsent none_there := h.unsent (same ▸ none_there)
  sent known := h.sent (same ▸ known)

theorem place_eq (h : Told input msg defs k F) (latest : Latest input msg defs k j st m f) :
    F.place m f.tag = some (placeOf st.cursor.scanned f) := by
  cases known : F.place m f.tag with
  | none => exact absurd rfl (h.unsent known latest.before latest.sends)
  | some p =>
      obtain ⟨i, st', g, latest', tag, rfl⟩ := h.sent known
      obtain ⟨rfl, rfl⟩ := latest.unique latest' tag.symm
      rfl

theorem set (h : Told input msg defs k F) (sends : Sends input msg defs k st m f) :
    Told input msg defs (k + 1) (F.set m f.tag (placeOf st.cursor.scanned f)) where
  unsent {m' tag} missing i st' g early sends' := by
    rintro rfl
    simp only [Forest.set] at missing
    split at missing
    · cases missing
    · rename_i other
      rcases Nat.lt_or_eq_of_le (Nat.le_of_lt_succ early) with earlier | rfl
      · exact h.unsent missing earlier sends' rfl
      · obtain ⟨-, rfl, rfl⟩ := sends.unique sends'
        exact other ⟨rfl, rfl⟩
  sent {m' tag p} known := by
    simp only [Forest.set] at known
    split at known
    · rename_i here
      obtain ⟨rfl, rfl⟩ := here
      refine ⟨k, st, f, ⟨sends, Nat.lt_succ_self k, fun later early => ?_⟩, rfl,
        (Option.some.inj known).symm⟩
      omega
    · rename_i other
      obtain ⟨j, st', g, latest, rfl, place⟩ := h.sent known
      refine ⟨j, st', g, ⟨latest.sends, Nat.lt_succ_of_lt latest.before,
        fun {i st'' g'} later early sends' => ?_⟩, rfl, place⟩
      rcases Nat.lt_or_eq_of_le (Nat.le_of_lt_succ early) with earlier | rfl
      · exact latest.last later earlier sends'
      · obtain ⟨-, rfl, rfl⟩ := sends.unique sends'
        exact fun same => other ⟨rfl, same.symm⟩

theorem skip (h : Told input msg defs k F)
    (silent : ∀ {st : ParseState maxMessageSize} {m : Nat} {f : RawField},
      ¬ Sends input msg defs k st m f) : Told input msg defs (k + 1) F where
  unsent missing i st g early sends := by
    rcases Nat.lt_or_eq_of_le (Nat.le_of_lt_succ early) with earlier | rfl
    · exact h.unsent missing earlier sends
    · exact absurd sends silent
  sent known := by
    obtain ⟨j, st, f, latest, tag, place⟩ := h.sent known
    refine ⟨j, st, f, ⟨latest.sends, Nat.lt_succ_of_lt latest.before,
      fun later early sends => ?_⟩, tag, place⟩
    rcases Nat.lt_or_eq_of_le (Nat.le_of_lt_succ early) with earlier | rfl
    · exact latest.last later earlier sends
    · exact absurd sends silent

end Told

namespace FixMessage.Visits

/-- In every state the arena tells what was sent so far. -/
theorem told (h : FixMessage.Visits input msg defs k st) (coherent : Coherent input st F) :
    Told input msg defs k F := by
  induction k generalizing st F with
  | zero =>
      obtain ⟨F₀, coherent₀, -⟩ := h.coherent
      obtain ⟨buf, reset, run⟩ := h
      cases run
      obtain ⟨buf', reset', used⟩ := reset_single msg
      rw [reset] at reset'
      cases reset'
      have start := coherent_start used input
      refine ⟨fun _ _ _ _ early => absurd early (Nat.not_lt_zero _), fun {m tag p} known => ?_⟩
      rw [coherent.shows.place_unique start.shows] at known
      cases known
  | succ k ih =>
      obtain ⟨st₀, before, round⟩ := h.exists_last
      obtain ⟨F₀, coherent₀, -⟩ := before.coherent
      have outcome := coherent₀.round defs
      rw [round] at outcome
      cases outcome with
      | next proceeds stored shows step grouped extends' coherent' =>
          have told := (ih before coherent₀).set ⟨before, ⟨_, proceeds.meets⟩, proceeds.current⟩
          refine told.congr ?_
          rw [← extends'.place_eq]
          funext m tag
          exact coherent.shows.place_unique coherent'.shows m tag

theorem last (h : FixMessage.Visits input msg defs k st)
    (leaves : parseField defs st = .ok (.exit st')) {i : Nat}
    {st'' : ParseState maxMessageSize} (h' : FixMessage.Visits input msg defs i st'') : i ≤ k := by
  by_contra later
  rw [Nat.not_le] at later
  obtain ⟨d, rfl⟩ := Nat.exists_eq_add_of_lt later
  clear later
  induction d generalizing st'' with
  | zero =>
      obtain ⟨before, visits, round⟩ := h'.exists_last
      obtain rfl := h.unique visits
      rw [leaves] at round
      cases round
  | succ d ih =>
      obtain ⟨before, visits, -⟩ := h'.exists_last
      exact ih visits

end FixMessage.Visits

/-- The result of a parse shows a forest that tells all that was sent, and holds the bytes
of the stream its fields designate. -/
theorem exists_result (parsed : FixMessage.parse input msg defs = .ok (msg', z)) :
    ∃ k F, msg'.arena.Shows F ∧ Told input msg defs k F ∧ msg'.msgBytes <+: input ∧
      Placed F msg'.msgBytes.length ∧
      (∀ {i : Nat} {st : ParseState maxMessageSize}, FixMessage.Visits input msg defs i st →
        i < k) := by
  obtain ⟨k, st, st', visits, leaves, rfl⟩ := exists_last_round parsed
  obtain ⟨F, coherent, -⟩ := visits.coherent
  have told := visits.told coherent
  have last : ∀ {i : Nat} {st : ParseState maxMessageSize}, FixMessage.Visits input msg defs i st →
      i < k + 1 := fun visits' => Nat.lt_succ_of_le (visits.last leaves visits')
  have outcome := coherent.round defs
  rw [leaves] at outcome
  cases outcome with
  | leaves part held unmet =>
      refine ⟨k + 1, F, coherent.shows, told.skip fun {st'' m f} sends => ?_, part,
        fun m tag p known => Nat.lt_of_lt_of_le (coherent.placed m tag p known) held, last⟩
      obtain rfl := visits.unique sends.visits
      obtain ⟨rest, meets⟩ := sends.meets
      exact unmet f rest meets
  | short meets current stored shows part held =>
      exact ⟨k + 1, _, shows, told.set ⟨visits, ⟨_, meets⟩, current⟩, part,
        fun m tag p known =>
          Nat.lt_of_lt_of_le (coherent.placed_set _ _ m tag p known) held, last⟩

end FastLittleMarket.Fix
