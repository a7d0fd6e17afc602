import FastLittleMarket.Fix.History

/-!
A parse of the first bytes of a stream beside a parse of the whole stream. As long as the
bytes last the two do the same, with the same buffer; the fields that the shorter one
stores are the first of those that the longer one stores.
-/

namespace FastLittleMarket.Fix

open Cursor

variable {maxMessageSize : Nat}

/-- What a `set` call of the parse stores: in which map, as which field, and the value that
was scanned. -/
structure Assignment where
  map : Nat
  field : Field
  value : List UInt8
  deriving DecidableEq

/-- The `set` call of a round, if it is made and the field list takes the field. -/
def assigned (st : ParseState maxMessageSize) : Option Assignment :=
  match scanToken maxMessageSize st.cursor, st.map with
  | .ok (some token, c), some map =>
      if token.tag = .checkSum then none
      else
        let field := Field.plain token.tag token.offset token.length
        match st.arena.set map field with
        | .ok _ => some ⟨map, field, (c.bytes.drop token.offset).take token.length⟩
        | .error _ => none
  | _, _ => none

/-- How a round comes to its outcome, by the assignment it makes: without one it leaves the
loop and the arena as it is, and with one the arena is changed by nothing else before the
group step. -/
inductive ParseState.Performs (defs : GroupDefs) (st : ParseState maxMessageSize) :
    Option Assignment → Loop.Step (ParseState maxMessageSize) (ParseState maxMessageSize) → Prop
  | nothing (c : Cursor) : Performs defs st none (.exit { st with cursor := c })
  | leaves {a : Assignment} {arena : Arena maxMessageSize}
      (stored : st.arena.set a.map a.field = .ok arena) (c : Cursor) :
      Performs defs st (some a) (.exit { st with cursor := c, arena := arena })
  | goes {a : Assignment} {arena : Arena maxMessageSize} {st' : ParseState maxMessageSize}
      (stored : st.arena.set a.map a.field = .ok arena) (c : Cursor)
      (groups : Option (List GroupDef))
      (grouped : groupStep a.map a.field.tag
        { st with cursor := c, arena := arena, msgGroups := groups } = .ok st') :
      Performs defs st (some a) (.next st')

def FixMessage.assignments (input : List UInt8) (msg : FixMessage maxMessageSize)
    (defs : GroupDefs) : Except ParseFault (List Assignment) := do
  let msg ← msg.reset
  pure (Loop.log (parseField defs) assigned (input.length + 1)
    { cursor := ⟨[], [], input⟩, arena := msg.arena, map := some FixMessage.root, stack := [],
      msgGroups := none })

section Round

variable {defs : GroupDefs} {st st' : ParseState maxMessageSize}

def settle (defs : GroupDefs) (st : ParseState maxMessageSize) (token : Token)
    (arena : Arena maxMessageSize) (map : Nat) :
    Bool × Cursor →
      Except ParseFault (Loop.Step (ParseState maxMessageSize) (ParseState maxMessageSize))
  | (false, c) => .ok (.exit { st with cursor := c, arena := arena })
  | (true, c) => do
      let st ← groupStep map token.tag
        { st with
          cursor := c.advance
          arena := arena
          msgGroups :=
            if token.tag = .msgType then
              defs.defs ((c.bytes.drop token.offset).take token.length)
            else st.msgGroups }
      return .next st

theorem parseField_token {token : Token} {c : Cursor} {map : Nat} {arena : Arena maxMessageSize}
    (scan : scanToken maxMessageSize st.cursor = .ok (some token, c))
    (notLast : token.tag ≠ .checkSum) (current : st.map = some map)
    (stored : st.arena.set map (Field.plain token.tag token.offset token.length) = .ok arena) :
    parseField defs st = (bulk token.tag arena map c).bind (settle defs st token arena map) := by
  unfold parseField bulk
  simp only [scan, bind, Except.bind, if_neg notLast, current, stored]
  split
  · cases readBody arena map c with
    | error e => rfl
    | ok result =>
        obtain ⟨complete, c'⟩ := result
        cases complete
        · simp only [settle, current]
          rfl
        · simp only [settle, current]
          rfl
  · simp only [settle, current]
    rfl

theorem assigned_token {token : Token} {c : Cursor} {map : Nat} {arena : Arena maxMessageSize}
    (scan : scanToken maxMessageSize st.cursor = .ok (some token, c))
    (notLast : token.tag ≠ .checkSum) (current : st.map = some map)
    (stored : st.arena.set map (Field.plain token.tag token.offset token.length) = .ok arena) :
    assigned st = some ⟨map, Field.plain token.tag token.offset token.length,
      (c.bytes.drop token.offset).take token.length⟩ := by
  unfold assigned
  simp only [scan, current, if_neg notLast, stored]

theorem exists_of_assigned {a : Assignment} (made : assigned st = some a) :
    ∃ token c map arena, scanToken maxMessageSize st.cursor = .ok (some token, c) ∧
      token.tag ≠ .checkSum ∧ st.map = some map ∧
      st.arena.set map (Field.plain token.tag token.offset token.length) = .ok arena ∧
      a = ⟨map, Field.plain token.tag token.offset token.length,
        (c.bytes.drop token.offset).take token.length⟩ := by
  unfold assigned at made
  split at made
  · rename_i token c map scan current
    split at made
    · cases made
    · rename_i notLast
      simp only at made
      split at made
      · rename_i arena stored
        cases made
        exact ⟨token, c, map, arena, scan, notLast, current, stored, rfl⟩
      · cases made
  · cases made

/-- The assignment of a round is the first thing it does to the arena, and a round that makes
none is the last one. -/
theorem parseField_assigned
    {outcome : Loop.Step (ParseState maxMessageSize) (ParseState maxMessageSize)}
    (round : parseField defs st = .ok outcome) : st.Performs defs (assigned st) outcome := by
  have whole := round
  obtain ⟨⟨token, c⟩, scan, round⟩ := Loop.exists_of_bind round
  cases token with
  | none =>
      cases round
      have nothing : assigned st = none := by
        unfold assigned
        rw [scan]
      rw [nothing]
      exact .nothing c
  | some token =>
      by_cases last : token.tag = .checkSum
      · simp only [if_pos last] at round
        cases round
        have nothing : assigned st = none := by
          unfold assigned
          cases st.map <;> simp only [scan, if_pos last]
        rw [nothing]
        exact .nothing c
      · simp only [if_neg last] at round
        cases current : st.map with
        | none =>
            rw [current] at round
            cases round
        | some map =>
            rw [current] at round
            obtain ⟨arena, stored, -⟩ := Loop.exists_of_bind round
            rw [parseField_token scan last current stored] at whole
            obtain ⟨⟨complete, c'⟩, read, settled⟩ := Loop.exists_of_bind whole
            rw [assigned_token scan last current stored]
            cases complete with
            | false =>
                cases settled
                exact .leaves stored c'
            | true =>
                obtain ⟨st', grouped, made⟩ := Loop.exists_of_bind settled
                cases made
                exact .goes stored _ _ grouped

theorem assigned_of_next (round : parseField defs st = .ok (.next st')) :
    ∃ a, assigned st = some a := by
  have performs := parseField_assigned round
  generalize assigned st = made at performs
  cases performs with
  | goes stored c groups grouped => exact ⟨_, rfl⟩

end Round

section Longer

variable {defs : GroupDefs} {st st' : ParseState maxMessageSize} {c c' : Cursor}
  {arena : Arena maxMessageSize} {map : Nat} {tag : FieldTag}

/-- The same buffer in front of a stream with `z` behind it. -/
def Cursor.more (c : Cursor) (z : List UInt8) : Cursor := { c with input := c.input ++ z }

def ParseState.more (st : ParseState maxMessageSize) (z : List UInt8) :
    ParseState maxMessageSize :=
  { st with cursor := st.cursor.more z }

variable (z : List UInt8)

theorem Cursor.bytes_more (c : Cursor) : (c.more z).bytes = c.bytes := rfl

theorem Cursor.advance_more (c : Cursor) : (c.more z).advance = c.advance.more z := by
  obtain ⟨s, ahead, input⟩ := c
  cases ahead <;> rfl

theorem ensureChar_more {b : UInt8}
    (there : c.ensureChar maxMessageSize = .ok (some (b, c'))) :
    (c.more z).ensureChar maxMessageSize = .ok (some (b, c'.more z)) := by
  obtain ⟨s, ahead, input⟩ := c
  cases ahead with
  | cons a ahead =>
      cases there
      rfl
  | nil =>
      cases input with
      | nil => cases there
      | cons a input =>
          simp only [Cursor.ensureChar, Cursor.more, List.cons_append] at there ⊢
          split at there
          · cases there
          · rename_i room
            cases there
            exact if_neg room

theorem scanBody_more {delimiter : UInt8}
    {outcome : Loop.Step Cursor (Bool × Cursor)}
    (round : Cursor.scanBody maxMessageSize delimiter c = .ok outcome) :
    (∃ c', outcome = .next c' ∧
        Cursor.scanBody maxMessageSize delimiter (c.more z) = .ok (.next (c'.more z))) ∨
      (∃ c', outcome = .exit (true, c') ∧
        Cursor.scanBody maxMessageSize delimiter (c.more z) = .ok (.exit (true, c'.more z))) ∨
      ∃ c', outcome = .exit (false, c') := by
  unfold Cursor.scanBody at round
  cases there : c.ensureChar maxMessageSize with
  | error e =>
      rw [there] at round
      cases round
  | ok found =>
      cases found with
      | none =>
          rw [there] at round
          cases round
          exact .inr (.inr ⟨c, rfl⟩)
      | some found =>
          obtain ⟨b, c'⟩ := found
          have longer := ensureChar_more z there
          simp only [there] at round
          simp only [Cursor.scanBody, longer]
          split at round
          · rename_i same
            cases round
            exact .inr (.inl ⟨c', rfl, if_pos same⟩)
          · rename_i other
            cases round
            exact .inl ⟨c'.advance, rfl, by rw [if_neg other, Cursor.advance_more]⟩

theorem scanTo_more {delimiter : UInt8}
    (found : c.scanTo maxMessageSize delimiter = .ok (true, c')) :
    (c.more z).scanTo maxMessageSize delimiter = .ok (true, c'.more z) := by
  have size : c.ahead.length + c.input.length + 1 ≤
      (c.more z).ahead.length + (c.more z).input.length + 1 := by
    simp only [Cursor.more, List.length_append]
    omega
  have round : ∀ {s t s' : Cursor}, t = s.more z →
      Cursor.scanBody maxMessageSize delimiter s = .ok (.next s') →
      ∃ t', Cursor.scanBody maxMessageSize delimiter t = .ok (.next t') ∧ t' = s'.more z := by
    rintro s t s' rfl round
    obtain ⟨c', same, goes⟩ | ⟨c', same, -⟩ | ⟨c', same⟩ := scanBody_more z round
    · cases same
      exact ⟨_, goes, rfl⟩
    · cases same
    · cases same
  have leave : ∀ {s t : Cursor} {r : Bool × Cursor}, t = s.more z →
      Cursor.scanBody maxMessageSize delimiter s = .ok (.exit r) → r.1 = true →
      ∃ r', Cursor.scanBody maxMessageSize delimiter t = .ok (.exit r') ∧
        r' = (true, r.2.more z) := by
    rintro s t r rfl round fine
    obtain ⟨c', same, -⟩ | ⟨c', same, leaves⟩ | ⟨c', same⟩ := scanBody_more z round
    · cases same
    · cases same
      exact ⟨_, leaves, rfl⟩
    · cases same
      cases fine
  obtain ⟨r', run, rfl⟩ := Loop.run_follows (fun s t : Cursor => t = s.more z)
    (fun r : Bool × Cursor => r.1 = true) (fun r r' => r' = (true, r.2.more z)) round leave rfl
    size found rfl
  exact run

theorem scanToken_more {token : Token}
    (scan : scanToken maxMessageSize c = .ok (some token, c')) :
    scanToken maxMessageSize (c.more z) = .ok (some token, c'.more z) := by
  obtain ⟨⟨found, c₁⟩, text, scan⟩ := Loop.exists_of_bind scan
  cases found with
  | false => cases scan
  | true =>
      obtain ⟨⟨found, c₂⟩, value, scan⟩ := Loop.exists_of_bind scan
      cases found with
      | false => cases scan
      | true =>
          cases scan
          have first := scanTo_more z text
          have second := scanTo_more z value
          rw [← Cursor.advance_more] at second
          unfold scanToken
          simp only [first, bind, Except.bind, Bool.not_true, Bool.false_eq_true, if_false, second]
          rw [Cursor.advance_more]
          rfl

theorem read_more {n : Nat} (read : c.read maxMessageSize n = .ok (true, c')) :
    (c.more z).read maxMessageSize n = .ok (true, c'.more z) := by
  unfold Cursor.read at read
  simp only at read
  split at read
  · cases read
  · rename_i room
    simp only [Except.ok.injEq, Prod.mk.injEq, decide_eq_true_eq] at read
    obtain ⟨enough, rfl⟩ := read
    have got : (c.input ++ z).take n = c.input.take n := List.take_append_of_le_length enough
    have left : (c.input ++ z).drop n = c.input.drop n ++ z := List.drop_append_of_le_length enough
    have longer : n ≤ (c.input ++ z).length := by
      rw [List.length_append]
      omega
    unfold Cursor.read
    simp only [Cursor.more, got, left, if_neg room, longer, decide_true]

theorem bulk_more (read : bulk tag arena map c = .ok (true, c')) :
    bulk tag arena map (c.more z) = .ok (true, c'.more z) := by
  unfold bulk at read ⊢
  split at read
  · rename_i length
    rw [if_pos length]
    obtain ⟨bodyLength, value, read⟩ := Loop.exists_of_bind read
    obtain ⟨withTrailer, first, read⟩ := Loop.exists_of_bind read
    obtain ⟨toRead, second, read⟩ := Loop.exists_of_bind read
    have ahead : (c.more z).ahead.length = c.ahead.length := rfl
    unfold readBody
    rw [Cursor.bytes_more]
    simp only [value, bind, Except.bind, first, ahead, second]
    split at read
    · rename_i wanted
      rw [if_pos wanted]
      exact read_more z read
    · rename_i held
      rw [if_neg held]
      cases read
      rfl
  · rename_i other
    rw [if_neg other]
    cases read
    rfl

theorem closeGroup_more {gd : GroupDef} (closed : closeGroup st gd = .ok st') :
    closeGroup (st.more z) gd = .ok (st'.more z) := by
  obtain ⟨c, a, map, stack, groups⟩ := st
  cases stack with
  | nil =>
      cases closed
      rfl
  | cons parent stack =>
      obtain ⟨field, get, closed⟩ := Loop.exists_of_bind closed
      unfold closeGroup ParseState.more
      simp only at get
      simp only [get, bind, Except.bind]
      cases field with
      | none =>
          cases closed
          rfl
      | some countField =>
          obtain ⟨expected, number, closed⟩ := Loop.exists_of_bind closed
          obtain ⟨received, count, closed⟩ := Loop.exists_of_bind closed
          simp only [Cursor.bytes_more, number, count]
          split at closed
          · rename_i all
            cases closed
            exact if_pos all
          · rename_i more
            obtain ⟨⟨group, arena⟩, added, closed⟩ := Loop.exists_of_bind closed
            cases closed
            rw [if_neg more, added]
            rfl

theorem applyGroups_more {gds : List GroupDef} (applied : applyGroups map tag st gds = .ok st') :
    applyGroups map tag (st.more z) gds = .ok (st'.more z) := by
  induction gds with
  | nil =>
      cases applied
      rfl
  | cons gd gds ih =>
      unfold applyGroups at applied ⊢
      split at applied
      · rename_i counts
        obtain ⟨⟨group, arena⟩, added, applied⟩ := Loop.exists_of_bind applied
        cases applied
        rw [if_pos counts]
        change (st.arena.addGroup map tag).bind _ = _
        rw [added]
        rfl
      · rename_i other
        rw [if_neg other]
        split at applied
        · rename_i ends
          rw [if_pos ends]
          exact closeGroup_more z applied
        · rename_i neither
          rw [if_neg neither]
          exact ih applied

theorem groupStep_more (stepped : groupStep map tag st = .ok st') :
    groupStep map tag (st.more z) = .ok (st'.more z) := by
  obtain ⟨c, a, m, stack, groups⟩ := st
  cases groups with
  | none =>
      cases stepped
      rfl
  | some gds => exact applyGroups_more z stepped

theorem settle_more {token : Token}
    (settled : settle defs st token arena map (true, c) = .ok (.next st')) :
    settle defs (st.more z) token arena map (true, c.more z) = .ok (.next (st'.more z)) := by
  obtain ⟨st₁, stepped, made⟩ := Loop.exists_of_bind settled
  cases made
  have longer := groupStep_more z stepped
  unfold ParseState.more at longer
  simp only [settle, ParseState.more, Cursor.advance_more, Cursor.bytes_more, bind, Except.bind]
  simp only at longer
  rw [longer]
  rfl

theorem assigned_more {a : Assignment} (made : assigned st = some a) :
    assigned (st.more z) = some a := by
  obtain ⟨token, c, map, arena, scan, notLast, current, stored, rfl⟩ := exists_of_assigned made
  have longer : scanToken maxMessageSize (st.more z).cursor = .ok (some token, c.more z) :=
    scanToken_more z scan
  have same : (st.more z).map = some map := current
  have made := assigned_token longer notLast same stored
  exact made

/-- A round that goes on does the same in front of a longer stream. -/
theorem parseField_more (round : parseField defs st = .ok (.next st')) :
    parseField defs (st.more z) = .ok (.next (st'.more z)) := by
  obtain ⟨a, made⟩ := assigned_of_next round
  obtain ⟨token, c, map, arena, scan, notLast, current, stored, -⟩ := exists_of_assigned made
  rw [parseField_token scan notLast current stored] at round
  obtain ⟨⟨complete, c'⟩, read, settled⟩ := Loop.exists_of_bind round
  cases complete with
  | false => cases settled
  | true =>
      have longer : scanToken maxMessageSize (st.more z).cursor = .ok (some token, c.more z) :=
        scanToken_more z scan
      have same : (st.more z).map = some map := current
      rw [parseField_token longer notLast same stored, bulk_more z read]
      exact settle_more z settled

end Longer

section Tokens

variable {input : List UInt8} {defs : GroupDefs} {st st' : ParseState maxMessageSize} {F : Forest}

theorem tokenize_next {y rest : List UInt8} {f : RawField} (next : nextField y = some (f, rest))
    (notLast : f.tag ≠ .checkSum) : tokenize y = f :: tokenize rest := by
  have other : f.text ≠ ascii "10" := by
    intro same
    refine notLast ?_
    unfold RawField.tag
    rw [same]
    decide
  unfold nextField at next
  cases found : cut equals y with
  | none =>
      rw [found] at next
      cases next
  | some parts =>
      rw [found] at next
      obtain ⟨parts', ended, same⟩ := Option.map_eq_some_iff.mp next
      cases same
      rw [tokenize]
      split
      · rename_i none_left
        rw [found] at none_left
        cases none_left
      · rename_i text rest found'
        rw [found] at found'
        cases found'
        rw [if_neg other]
        split
        · rename_i none_left
          rw [ended] at none_left
          cases none_left
        · rename_i value rest' ended'
          rw [ended] at ended'
          cases ended'
          rfl

/-- What is assigned is the next field of the stream, which is complete. -/
theorem Coherent.meets_of_assigned (h : Coherent input st F) {a : Assignment}
    (made : assigned st = some a) :
    ∃ f rest, st.Meets f rest ∧ a.field = entry st.cursor.scanned f ∧ a.value = f.value := by
  obtain ⟨token, c, map, arena, scan, notLast, current, stored, rfl⟩ := exists_of_assigned made
  have whole : window st.cursor.scanned st.pending st.cursor.ahead.length = st.cursor :=
    congrArg ParseState.cursor st.eq_window
  rw [← whole] at scan
  by_cases excess : maxMessageSize < st.cursor.scanned.length + demand st.pending
  · rw [scanToken_excess h.held excess] at scan
    cases scan
  cases next : nextField st.pending with
  | none =>
      rw [demand_end next] at excess
      rw [scanToken_none next (Nat.le_of_not_lt excess)] at scan
      cases scan
  | some parts =>
      obtain ⟨f, rest⟩ := parts
      rw [demand_field next] at excess
      have fits := Nat.le_of_not_lt excess
      obtain ⟨split, delimited⟩ := nextField_eq_some next
      rw [split, scanToken_field delimited rest _ fits] at scan
      cases scan
      refine ⟨f, rest, ⟨next, fits, notLast⟩, rfl, ?_⟩
      have front : (st.cursor.scanned ++ (f.text ++ [equals])).length =
          (f.token st.cursor.scanned.length).offset := by
        simp only [RawField.token, List.length_append, List.length_singleton, Nat.add_assoc]
      have parts : (st.cursor.scanned ++ (f.text ++ equals :: f.value)) =
          (st.cursor.scanned ++ (f.text ++ [equals])) ++ f.value := by
        simp
      rw [bytes_window, parts, List.append_assoc, List.drop_left' front]
      exact List.take_left' rfl

def storedAs (p : Nat × RawField) : Field × List UInt8 :=
  (Field.plain p.2.tag (span p).1 (span p).2, p.2.value)

/-- The assignments of a run are the first fields of the stream. -/
theorem Coherent.log_eq (h : Coherent input st F) (defs : GroupDefs) (fuel : Nat) :
    ∃ fs, fs <+: tokenize st.pending ∧
      (Loop.log (parseField defs) assigned fuel st).map (fun a => (a.field, a.value)) =
        (spots st.cursor.scanned.length fs).map storedAs := by
  induction fuel generalizing st F with
  | zero => exact ⟨[], List.nil_prefix, rfl⟩
  | succ fuel ih =>
      unfold Loop.log
      cases made : assigned st with
      | none =>
          refine ⟨[], List.nil_prefix, ?_⟩
          split
          · rename_i st' round
            obtain ⟨a, made'⟩ := assigned_of_next round
            cases made.symm.trans made'
          · rfl
      | some a =>
          obtain ⟨f, rest, meets, field, value⟩ := h.meets_of_assigned made
          have tokens := tokenize_next meets.next meets.notLast
          have first : (a.field, a.value) = storedAs (st.cursor.scanned.length, f) := by
            rw [field, value]
            rfl
          split
          · rename_i st' round
            obtain ⟨m, f', rest', F', proceeds, coherent, pending, scanned⟩ := h.advances round
            obtain ⟨rfl, rfl⟩ := meets.unique proceeds.meets
            obtain ⟨fs, begins, same⟩ := ih coherent
            rw [pending] at begins
            rw [scanned, List.length_append] at same
            refine ⟨f :: fs, ?_, ?_⟩
            · rw [tokens]
              exact (List.prefix_cons_inj f).mpr begins
            · simp only [Option.toList_some, List.singleton_append, List.map_cons, same, first,
                spots]
          · refine ⟨[f], ?_, ?_⟩
            · rw [tokens]
              exact (List.prefix_cons_inj f).mpr List.nil_prefix
            · simp only [Option.toList_some, List.append_nil, List.map_cons, List.map_nil, first,
                spots]

theorem exists_wireAll_of_prefix {bytes : List UInt8} {fs : List RawField}
    (begins : fs <+: tokenize bytes) : ∃ rest, bytes = wireAll fs ++ rest := by
  obtain ⟨rest, split, -⟩ := tokenize_split bytes
  obtain ⟨gs, whole⟩ := begins
  refine ⟨wireAll gs ++ rest, ?_⟩
  rw [← List.append_assoc, ← wireAll_append, whole]
  exact split

/-- The assignments made on the first bytes of a stream are the first of those made on the
whole stream, and what they store are the first complete fields of those bytes, each with
its whole value, which is read back where the 16 bits of its place suffice. They are what
the rounds of the parse loop store. -/
theorem FixMessage.truncation_safe (p z : List UInt8) (msg : FixMessage maxMessageSize)
    (defs : GroupDefs) :
    ∃ cut whole fs, FixMessage.assignments p msg defs = .ok cut ∧
      FixMessage.assignments (p ++ z) msg defs = .ok whole ∧ cut <+: whole ∧
      fs <+: tokenize p ∧
      cut.map (fun a => (a.field, a.value)) = (spots 0 fs).map storedAs ∧
      (Near fs → ∀ a ∈ cut, bytesFrom p a.field.offset.toNat a.field.length.toNat = a.value) ∧
      ∀ (st : ParseState maxMessageSize) outcome, parseField defs st = .ok outcome →
        st.Performs defs (assigned st) outcome := by
  obtain ⟨buf, reset, used⟩ := reset_single msg
  have starts : ∀ input, FixMessage.assignments input msg defs =
      .ok (Loop.log (parseField defs) assigned (input.length + 1) (.start buf input)) := by
    intro input
    unfold FixMessage.assignments
    rw [reset]
    rfl
  obtain ⟨fs, begins, same⟩ := (coherent_start used p).log_eq defs (p.length + 1)
  refine ⟨_, _, fs, starts p, starts (p ++ z), ?_, begins, same, ?_,
    fun st outcome => parseField_assigned⟩
  · refine Loop.log_prefix (fun s t : ParseState maxMessageSize => t = s.more z) ?_ ?_ rfl ?_
    · rintro s t w rfl made
      exact assigned_more z made
    · rintro s t s' rfl round
      obtain ⟨a, made⟩ := assigned_of_next round
      exact ⟨Option.ne_none_iff_exists'.mpr ⟨a, made⟩, _, parseField_more z round, rfl⟩
    · rw [List.length_append]
      omega
  · intro near a ha
    have known : (a.field, a.value) ∈ (spots 0 fs).map storedAs :=
      same ▸ List.mem_map_of_mem ha
    obtain ⟨spot, inside, stored⟩ := List.mem_map.mp known
    obtain ⟨field, value⟩ := Prod.mk.inj stored
    obtain ⟨rest, stands⟩ := exists_wireAll_of_prefix begins
    have legible := legible_of_near near rest spot inside
    rw [← stands] at legible
    rw [← field, ← value]
    exact legible.slice (f := (storedAs spot).1) rfl (.single buf KeyedList.empty)

end Tokens

end FastLittleMarket.Fix
