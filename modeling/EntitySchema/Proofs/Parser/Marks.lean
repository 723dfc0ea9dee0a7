import EntitySchema.Proofs.Canonical.Squeeze
import EntitySchema.Proofs.Parser.Places
/-!
  Where a parser takes structural marks.

  The grammar leaves no choice about the layout.

  1. **A scope is not a line.**  A parser that takes the start of a scope does not take the end of a line
     (`not_endLine_of_openScope`), so a scope without content cannot be mistaken for the end of a line.

  2. **Scopes open behind words.**  Behind a mark a parser is `idle`: it waits for a line or the end of a
     scope, and takes no further start of one (`headed_of_feedLexemes`).

  3. **The host leaves no trace.**  Two hosts that both let a list pass make the same of it
     (`feedLexemes_unique`): a host decides whether the machine goes on, and not how.

  Together this gives `eq_of_squeeze_eq`.  A page writes a scope without content as it writes the end of a
  line, which is what `squeeze` does to a list of pieces; lists that can be read are the same if they are the
  same once they are squeezed.
-/

namespace EntitySchema

/-- The parser waits for a line, or for the end of a scope. -/
def State.isIdle : State → Bool
  | between | inBody _ => true
  | _ => false

namespace State

variable {host host' : HostTypes} {draft : Draft} {place place' : Position} {s : State}
  {move move' : Move}

/-- The states that take the start of a scope refuse the end of a line. -/
theorem not_endLine_of_openScope (h : s.step host draft place (some .openScope) = .ok move) :
    s.step host' draft place' (some .endLine) ≠ .ok move' := by
  intro hends
  cases s with
  -- Three states take the start of a scope.
  | header | opening | commandForm => cases hends
  | between | namespaceFirst | namespaceMore | namespacePart | protocolName | protocolNameEnd
  | declarationName | commandReturn | commandEnd | metaKey | metaValue | inBody | fieldType
  | constantValue | lodLevel | entry | entryEnd => cases h

/-- An idle state does not take the start of a scope. -/
theorem openScope_of_isIdle (h : s.isIdle) : s.step host draft place (some .openScope) ≠ .ok move := by
  intro hopens
  cases s with
  | between | inBody => cases hopens
  | namespaceFirst | namespaceMore | namespacePart | protocolName | protocolNameEnd
  | declarationName | header | opening | commandForm | commandReturn | commandEnd | metaKey | metaValue
  | fieldType | constantValue | lodLevel | entry | entryEnd => cases h

/-- Behind the start of a scope, its end, or the end of a line a parser is idle. -/
theorem isIdle_of_mark {x : Lexeme} (hx : x = .openScope ∨ x = .closeScope ∨ x = .endLine)
    (h : s.step host draft place (some x) = .ok move) : move.state.isIdle := by
  rcases hx with rfl | rfl | rfl
  · cases s with
    | header | opening | commandForm => cases h; rfl
    | between | namespaceFirst | namespaceMore | namespacePart | protocolName | protocolNameEnd
    | declarationName | commandReturn | commandEnd | metaKey | metaValue | inBody | fieldType
    | constantValue | lodLevel | entry | entryEnd => cases h
  · cases s with
    | inBody body =>
      cases body with
      | fields | constants | lods => cases h; rfl
      | items archetype level read =>
        simp only [step, stepBody, Body.close] at h
        split at h
        · cases h; rfl
        · cases h
    | between | namespaceFirst | namespaceMore | namespacePart | protocolName | protocolNameEnd
    | declarationName | header | opening | commandForm | commandReturn | commandEnd | metaKey
    | metaValue | fieldType | constantValue | lodLevel | entry | entryEnd => cases h
  · cases s with
    | between | namespaceMore | protocolNameEnd | commandEnd | entry | entryEnd => cases h; rfl
    | namespaceFirst | namespacePart | protocolName | declarationName | header | opening | commandForm
    | commandReturn | metaKey | metaValue | inBody | fieldType | constantValue | lodLevel => cases h

/-- The end of the source will do wherever the end of a line will. -/
theorem step_none_eq_ok_iff : s.step host draft place none = .ok move ↔
    s.step host draft place (some .endLine) = .ok move := by
  cases s with
  | between | namespaceMore | protocolNameEnd | commandEnd | entry | entryEnd => exact Iff.rfl
  | namespaceFirst | namespacePart | protocolName | declarationName | header | opening | commandForm
  | commandReturn | metaKey | metaValue | inBody | fieldType | constantValue | lodLevel =>
    constructor <;> nofun

/-- Hosts that both know a name agree on what it stands for: a component comes first. -/
theorem resolve_unique {name : String} {a b : ItemType} (h : Body.resolve host draft name = .ok a)
    (h' : Body.resolve host' draft name = .ok b) : a = b := by
  unfold Body.resolve at h h'
  split at h
  · next c hc =>
    rw [hc] at h'
    cases h
    cases h'
    rfl
  -- No component has the name, so both hosts know it as a type of theirs.
  · next hc =>
    rw [hc] at h'
    simp only at h'
    split at h
    · split at h'
      · cases h
        cases h'
        rfl
      · cases h'
    · cases h

/-- A host decides whether the machine goes on, and not how. -/
theorem step_unique {found : Option Lexeme} (h : s.step host draft place found = .ok move)
    (h' : s.step host' draft place found = .ok move') : move = move' := by
  cases s with
  -- Only the name of an item is shown to the host.
  | inBody body =>
    simp only [step, stepBody] at h h'
    split at h
    · next word =>
      cases body with
      | fields | constants | lods => exact Except.ok.inj (h.symm.trans h')
      | items archetype level read =>
        simp only [Body.startEntry] at h h'
        split at h
        · next type htype =>
          split at h'
          · next type' htype' =>
            cases resolve_unique htype htype'
            exact Except.ok.inj (h.symm.trans h')
          · cases h'
        · cases h
    · exact Except.ok.inj (h.symm.trans h')
    · cases h
  | between | namespaceFirst | namespaceMore | namespacePart | protocolName | protocolNameEnd
  | declarationName | header | opening | commandForm | commandReturn | commandEnd | metaKey | metaValue
  | fieldType | constantValue | lodLevel | entry | entryEnd => exact Except.ok.inj (h.symm.trans h')

end State

namespace Parser

variable {host host' : HostTypes} {place place' : Position} {p q q' : Parser}

/-- A parser that is fed makes the move of its state: the effect goes to the draft and the uses, and the next
state is that of the move. -/
theorem feed_eq_ok_iff {found : Option Lexeme} :
    p.feed host place found = .ok q ↔
      ∃ move, p.state.step host p.draft place found = .ok move ∧
        apply move.effect p.draft p.uses = .ok (q.draft, q.uses) ∧ move.state = q.state := by
  obtain ⟨draft, uses, state⟩ := p
  obtain ⟨draft', uses', state'⟩ := q
  simp only [feed]
  cases state.step host draft place found with
  | error => simp
  | ok move =>
    simp only [Except.ok.injEq, exists_eq_left']
    cases apply move.effect draft uses with
    | error => simp
    | ok r => simp [Prod.ext_iff, and_assoc]

/-- A parser that takes the start of a scope does not take the end of a line, whatever the host. -/
theorem not_feed_endLine (h : p.feed host place (some .openScope) = .ok q) :
    p.feed host' place' (some .endLine) ≠ .ok q' := by
  intro hends
  obtain ⟨move, hstep, -⟩ := feed_eq_ok_iff.1 h
  obtain ⟨move', hstep', -⟩ := feed_eq_ok_iff.1 hends
  exact State.not_endLine_of_openScope hstep hstep'

/-- Hosts that let a parser go on agree on how it goes on. -/
theorem feed_unique {found : Option Lexeme} (h : p.feed host place found = .ok q)
    (h' : p.feed host' place found = .ok q') : q = q' := by
  obtain ⟨move, hstep, happly, hstate⟩ := feed_eq_ok_iff.1 h
  obtain ⟨move', hstep', happly', hstate'⟩ := feed_eq_ok_iff.1 h'
  cases State.step_unique hstep hstep'
  have hsame := Except.ok.inj (happly.symm.trans happly')
  obtain ⟨draft, uses, state⟩ := q
  obtain ⟨draft', uses', state'⟩ := q'
  simp only [Prod.mk.injEq] at hsame hstate hstate'
  rw [hsame.1, hsame.2, ← hstate, ← hstate']

/-- A list is read by its first lexeme and then by the others. -/
theorem feedLexemes_cons {x : Lexeme} {xs : List Lexeme} :
    p.feedLexemes host (x :: xs) = .ok q ↔
      ∃ mid, p.feed host .start (some x) = .ok mid ∧ mid.feedLexemes host xs = .ok q := by
  rw [feedLexemes]
  cases p.feed host .start (some x) <;> simp

/-- A list is read one part after the other. -/
theorem feedLexemes_append {xs ys : List Lexeme} : p.feedLexemes host (xs ++ ys) = .ok q ↔
    ∃ mid, p.feedLexemes host xs = .ok mid ∧ mid.feedLexemes host ys = .ok q := by
  induction xs generalizing p with
  | nil => simp [feedLexemes]
  | cons x xs ih =>
    rw [List.cons_append, feedLexemes_cons]
    simp only [ih, feedLexemes_cons]
    constructor
    · rintro ⟨next, hnext, mid, hmid, hq⟩
      exact ⟨mid, ⟨next, hnext, hmid⟩, hq⟩
    · rintro ⟨mid, ⟨next, hnext, hmid⟩, hq⟩
      exact ⟨next, hnext, mid, hmid, hq⟩

/-- What parsers make of a list does not depend on the host. -/
theorem feedLexemes_unique {xs : List Lexeme} (h : p.feedLexemes host xs = .ok q)
    (h' : p.feedLexemes host' xs = .ok q') : q = q' := by
  induction xs generalizing p with
  | nil =>
    cases h
    cases h'
    rfl
  | cons x xs ih =>
    obtain ⟨mid, hfeed, hmore⟩ := feedLexemes_cons.1 h
    obtain ⟨mid', hfeed', hmore'⟩ := feedLexemes_cons.1 h'
    cases feed_unique hfeed hfeed'
    exact ih hmore hmore'

/-- Hosts that let a list pass to its end agree on what it says. -/
theorem completes_unique {xs : List Lexeme} (h : p.Completes host xs q)
    (h' : p.Completes host' xs q') : q = q' := by
  obtain ⟨mid, last, hmid, hlast, hq⟩ := h
  obtain ⟨mid', last', hmid', hlast', hq'⟩ := h'
  cases feedLexemes_unique hmid hmid'
  cases feed_unique hlast hlast'
  exact feed_unique hq hq'

/-- Scopes open behind words only, in a list that a parser reads. -/
theorem headed_of_feedLexemes {s : Spot} {ps : List Piece} (hproper : ∀ x ∈ ps, x.Proper)
    (hbare : ∀ x ∈ ps, x.isRemark = false) (hidle : s.isOpen = false → p.state.isIdle)
    (h : p.feedLexemes host (ps.map Piece.lexeme) = .ok q) : s.Headed ps := by
  induction ps generalizing s p with
  | nil => trivial
  | cons x ps ih =>
    obtain ⟨mid, hfeed, hmore⟩ := feedLexemes_cons.1 h
    obtain ⟨move, hstep, -, hstate⟩ := feed_eq_ok_iff.1 hfeed
    -- Behind each mark the parser is idle again.
    have of_mark : x.lexeme = .openScope ∨ x.lexeme = .closeScope ∨ x.lexeme = .endLine →
        mid.state.isIdle := fun hx => hstate ▸ State.isIdle_of_mark hx hstep
    refine ⟨?_, ih (fun y hy => hproper y (List.mem_cons_of_mem x hy))
      (fun y hy => hbare y (List.mem_cons_of_mem x hy)) ?_ hmore⟩
    · rintro rfl
      rw [← Bool.not_eq_false]
      exact fun hs => State.openScope_of_isIdle (hidle hs) hstep
    · intro hopen
      cases x with
      | remark => cases hbare _ List.mem_cons_self
      | word => rw [Spot.after_word] at hopen; cases hopen
      | opens => exact of_mark (Or.inl rfl)
      | closes => exact of_mark (Or.inr (Or.inl rfl))
      | ends => exact of_mark (Or.inr (Or.inr rfl))

/-- Lists that can be read are the same if they are the same once they are squeezed. -/
theorem eq_of_squeeze_eq {ps qs : List Piece} (h : Piece.squeeze ps = Piece.squeeze qs)
    (hp : p.feedLexemes host (ps.map Piece.lexeme) = .ok q)
    (hq : p.feedLexemes host' (qs.map Piece.lexeme) = .ok q') : ps = qs := by
  -- Both lists are read in step from one parser, which tells them apart where they differ.
  induction ps using Piece.squeeze.induct generalizing qs p with
  | case1 =>
    cases qs using Piece.squeeze.fun_cases with
    | case1 => rfl
    | case2 => cases h
    | case3 b qs hne =>
      rw [Piece.squeeze_cons fun rs hb hr => hne rs hb hr] at h
      cases h
  | case2 ps ih =>
    obtain ⟨mid, hopens, hp⟩ := feedLexemes_cons.1 hp
    cases qs using Piece.squeeze.fun_cases with
    | case1 => cases h
    | case2 qs =>
      obtain ⟨mid', hopens', hq⟩ := feedLexemes_cons.1 hq
      cases feed_unique hopens hopens'
      obtain ⟨last, hcloses, hp⟩ := feedLexemes_cons.1 hp
      obtain ⟨last', hcloses', hq⟩ := feedLexemes_cons.1 hq
      cases feed_unique hcloses hcloses'
      rw [ih (List.cons.inj h).2 hp hq]
    | case3 b qs hne =>
      rw [Piece.squeeze_cons fun rs hb hr => hne rs hb hr] at h
      obtain ⟨rfl, -⟩ := List.cons.inj h
      -- A scope starts where the other list has the end of a line.
      obtain ⟨_, hends, -⟩ := feedLexemes_cons.1 hq
      exact absurd hends (not_feed_endLine hopens)
  | case3 a ps hne ih =>
    rw [Piece.squeeze_cons fun rs ha hr => hne rs ha hr] at h
    obtain ⟨mid, hfeed, hp⟩ := feedLexemes_cons.1 hp
    cases qs using Piece.squeeze.fun_cases with
    | case1 => cases h
    | case2 qs =>
      obtain ⟨rfl, -⟩ := List.cons.inj h
      obtain ⟨_, hopens, -⟩ := feedLexemes_cons.1 hq
      exact absurd hfeed (not_feed_endLine hopens)
    | case3 b qs hne' =>
      rw [Piece.squeeze_cons fun rs hb hr => hne' rs hb hr] at h
      obtain ⟨rfl, hrest⟩ := List.cons.inj h
      obtain ⟨mid', hfeed', hq⟩ := feedLexemes_cons.1 hq
      cases feed_unique hfeed hfeed'
      rw [ih hrest hp hq]

end Parser

end EntitySchema
