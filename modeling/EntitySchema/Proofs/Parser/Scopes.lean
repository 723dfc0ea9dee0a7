import EntitySchema.Proofs.Parser.Grammar
import EntitySchema.Proofs.Parser.Marks
/-!
  How a parser reads scopes.

  For every state of the machine inside a declaration one lemma says which lexemes bring a parser from it to
  `q`: those of the part that the state waits for, and then any that do so from the next state,

      Completes host ⟨draft, uses, σ⟩ xs q  ↔  ∃ part rest, xs = (lexemes of part) ++ rest ∧
      Completes host ⟨draft, uses, next part⟩ rest q

  * One lexeme: `completes_one_iff`, and for symbols `completes_symbol_iff`.
  * The end of a line outside of scopes, which may be that of the source: `completes_lineEnd_iff`.
  * Meta data or none, and then a mark: `completes_bracketed_iff`, with lines of scopes
    (`completes_entry_iff`) and first lines (`completes_header_iff`) as its two cases.
  * Lines up to the end of their scope: `completes_scope_iff`, once it is known how a single line is read.
    Fields and constants are taken whatever they say (`completes_plainScope_iff`); items have to be known and
    levels to be counted, so there the lines are folded in `Option`.
-/

namespace EntitySchema

/-! ## What lines mean -/

namespace Pairs

/-- The meta data that pairs stand for. -/
def metadata (pairs? : Option Pairs) : Metadata :=
  (pairs?.getD []).foldl (fun read pair => read.insert pair.1 pair.2) .empty

end Pairs

/-- The fields with one more. -/
def FieldLine.append (read : Array PlacedField) (line : FieldLine) : Array PlacedField :=
  read.push ⟨⟨read.size, line.name, line.typeName, Pairs.metadata line.pairs?⟩, .start⟩

/-- The constants with one more. -/
def ConstantLine.append (read : Array Constant) (line : ConstantLine) : Array Constant :=
  read.push ⟨read.size, line.name, line.value, Pairs.metadata line.pairs?⟩

/-- The items with one more, if it is known. -/
def ItemLine.append? (host : HostTypes) (draft : Draft) (read : Array Item) (line : ItemLine) :
    Option (Array Item) :=
  match Body.resolve host draft line.name with
  | .ok type => some (read.push ⟨type, Pairs.metadata line.pairs?⟩)
  | .error _ => none

/-- The archetype with one more level of detail, if it is the next one and its items are known. -/
def LodBlock.append? (host : HostTypes) (draft : Draft) (archetype : Archetype) (block : LodBlock) :
    Option Archetype :=
  match block.items.foldlM (ItemLine.append? host draft) #[] with
  | some items => (archetype.addLod block.level items.toList).toOption
  | none => none

/-- A level is taken exactly if its items are known and it is the next one. -/
theorem LodBlock.append?_eq_some_iff {host : HostTypes} {draft : Draft} {archetype next : Archetype}
    {block : LodBlock} : block.append? host draft archetype = some next ↔
      ∃ items, block.items.foldlM (ItemLine.append? host draft) #[] = some items ∧
        archetype.addLod block.level items.toList = .ok next := by
  unfold append?
  cases block.items.foldlM (ItemLine.append? host draft) #[] with
  | none => simp
  | some items => cases h : archetype.addLod block.level items.toList <;> simp [h, Except.toOption]

/-- The effect of fields that are complete. -/
def FieldOwner.effect (lines : List FieldLine) (owner : FieldOwner) : Effect :=
  let placed := (lines.foldl FieldLine.append #[]).toList
  .declare (owner.declaration (placed.map (·.field))) (owner.uses placed)

namespace Parser

/-- The parser between declarations, after an effect. -/
def settle? (draft : Draft) (uses : Array FieldUse) (effect : Effect) : Option Parser :=
  match apply effect draft uses with
  | .ok (draft, uses) => some ⟨draft, uses, .between⟩
  | .error _ => none

variable {host : HostTypes} {draft : Draft} {uses : Array FieldUse} {σ : State} {x : Lexeme}
  {xs : List Lexeme} {p q : Parser}

/-! ## Single steps -/

/-- To complete a list is to take its first lexeme and complete the others. -/
theorem completes_cons : p.Completes host (x :: xs) q ↔
    ∃ p', p.feed host .start (some x) = .ok p' ∧ p'.Completes host xs q := by
  simp only [Completes, feedLexemes]
  cases p.feed host .start (some x) <;> simp

/-- A move that only enters a state leaves the draft and the uses alone. -/
theorem feed_enter {found : Option Lexeme} {next : State}
    (h : σ.step host draft .start found = .ok (.enter next)) :
    feed host .start found ⟨draft, uses, σ⟩ = .ok ⟨draft, uses, next⟩ := by
  simp [feed, h, apply, Move.enter]

/-- Where the machine enters a state, the rest is completed from there. -/
theorem completes_enter {next : State} (h : σ.step host draft .start (some x) = .ok (.enter next)) :
    Completes host ⟨draft, uses, σ⟩ (x :: xs) q ↔ Completes host ⟨draft, uses, next⟩ xs q := by
  simp [completes_cons, feed_enter h]

/-- Where the machine finds a fault nothing is completed. -/
theorem not_completes {fault : ParseFault} (h : σ.step host draft .start (some x) = .error fault) :
    ¬ Completes host ⟨draft, uses, σ⟩ (x :: xs) q := by
  simp [completes_cons, feed, h]

/-- Nor at the end of the source, if it finds one there. -/
theorem not_completes_nil {fault : ParseFault} (h : σ.step host draft .start none = .error fault) :
    ¬ Completes host ⟨draft, uses, σ⟩ [] q := by
  simp [Completes, feedLexemes, feed, h]

/-- The end of the source leaves a parser between declarations where it is. -/
theorem completes_between_nil :
    Completes host ⟨draft, uses, .between⟩ [] q ↔ q = ⟨draft, uses, .between⟩ := by
  have hfeed : feed host .start none ⟨draft, uses, .between⟩ = .ok ⟨draft, uses, .between⟩ := rfl
  constructor
  · rintro ⟨mid, last, hmid, hlast, hq⟩
    cases hmid
    cases hfeed.symm.trans hlast
    exact (Except.ok.inj (hfeed.symm.trans hq)).symm
  · rintro rfl
    exact ⟨_, _, rfl, hfeed, hfeed⟩

/-- A scope does not end with the source. -/
theorem not_completes_inBody_nil {body : Body} :
    ¬ Completes host ⟨draft, uses, .inBody body⟩ [] q := not_completes_nil rfl

/-- The end of the source ends a line, but not the scope around it. -/
theorem not_completes_nil_of_inBody {body : Body}
    (h : σ.step host draft .start none = .ok (.enter (.inBody body))) :
    ¬ Completes host ⟨draft, uses, σ⟩ [] q := by
  rintro ⟨mid, last, hmid, hlast, hq⟩
  cases hmid
  cases (feed_enter h).symm.trans hlast
  cases hq

/-- A move that completes something. -/
theorem feed_eq_ok_iff_settle? {found : Option Lexeme} {effect : Effect}
    (h : σ.step host draft .start found = .ok ⟨.between, effect⟩) :
    feed host .start found ⟨draft, uses, σ⟩ = .ok p ↔ settle? draft uses effect = some p := by
  simp only [feed, h, settle?]
  cases apply effect draft uses <;> simp

/-- After an effect that is taken a parser is between declarations. -/
theorem settle?_eq_some {effect : Effect} (h : settle? draft uses effect = some q) :
    q.state = .between := by
  unfold settle? at h
  split at h
  · cases h
    rfl
  · cases h

/-- A lexeme that completes something is followed by what comes between declarations. -/
theorem completes_complete_iff {effect : Effect}
    (h : σ.step host draft .start (some x) = .ok ⟨.between, effect⟩) :
    Completes host ⟨draft, uses, σ⟩ (x :: xs) q ↔
      ∃ p, settle? draft uses effect = some p ∧ p.Completes host xs q := by
  rw [completes_cons]
  exact exists_congr fun p => and_congr_left' (feed_eq_ok_iff_settle? h)

/-- A line outside of scopes ends at its mark or at the end of the source. -/
theorem completes_of_lineEnd {effect : Effect} {rest : List Lexeme} (hends : LineEnd xs rest)
    (h : ∀ found, found = some .endLine ∨ found = none →
      σ.step host draft .start found = .ok ⟨.between, effect⟩) :
    Completes host ⟨draft, uses, σ⟩ xs q ↔
      ∃ p, settle? draft uses effect = some p ∧ p.Completes host rest q := by
  cases hends with
  | mark => exact completes_complete_iff (h _ (Or.inl rfl))
  | last =>
    -- The end of the source is told twice: it ends the line, and then finds no declaration open.
    have hfeed : ∀ p, feed host .start none ⟨draft, uses, σ⟩ = .ok p ↔
        settle? draft uses effect = some p := fun p => feed_eq_ok_iff_settle? (h none (Or.inr rfl))
    constructor
    · rintro ⟨mid, last, hmid, hlast, hq⟩
      cases hmid
      have hsettle := (hfeed last).1 hlast
      obtain ⟨draft', uses', state⟩ := last
      obtain rfl : state = .between := settle?_eq_some hsettle
      exact ⟨_, hsettle, completes_between_nil.2 (Except.ok.inj hq).symm⟩
    · rintro ⟨p, hsettle, hq⟩
      obtain ⟨draft', uses', state⟩ := p
      obtain rfl : state = .between := settle?_eq_some hsettle
      obtain rfl := completes_between_nil.1 hq
      exact ⟨_, _, rfl, (hfeed _).2 hsettle, rfl⟩

/-- A state that waits for the end of a line only. -/
theorem completes_lineEnd_iff {effect : Effect}
    (h : ∀ found, σ.step host draft .start found = State.onLineEnd found ⟨.between, effect⟩) :
    Completes host ⟨draft, uses, σ⟩ xs q ↔ ∃ rest p, LineEnd xs rest ∧
      settle? draft uses effect = some p ∧ p.Completes host rest q := by
  have hends : ∀ found, found = some .endLine ∨ found = none →
      σ.step host draft .start found = .ok ⟨.between, effect⟩ := by
    rintro found (rfl | rfl) <;> exact h _
  constructor
  · intro hq
    cases xs with
    | nil => exact ⟨[], (completes_of_lineEnd .last hends).1 hq |>.imp fun p hp => ⟨.last, hp⟩⟩
    | cons x xs =>
      cases x with
      | endLine =>
        exact ⟨xs, (completes_of_lineEnd (.mark xs) hends).1 hq |>.imp fun p hp => ⟨.mark xs, hp⟩⟩
      | symbol | number | string | comment | operator | openScope | closeScope | openMeta | closeMeta =>
        exact absurd hq (not_completes (h _))
  · rintro ⟨rest, p, hend, hp⟩
    exact (completes_of_lineEnd hend hends).2 ⟨p, hp⟩

/-! ## States that wait for one lexeme -/

/-- A state that takes one sort of lexeme only. -/
theorem completes_one_iff {α : Type} (write : α → Lexeme) (next : α → State)
    (hnext : ∀ a, σ.step host draft .start (some (write a)) = .ok (.enter (next a)))
    (hother : ∀ x, (∃ a, x = write a) ∨ ∃ fault, σ.step host draft .start (some x) = .error fault)
    (hnil : ¬ Completes host ⟨draft, uses, σ⟩ [] q) :
    Completes host ⟨draft, uses, σ⟩ xs q ↔
      ∃ a rest, xs = write a :: rest ∧ Completes host ⟨draft, uses, next a⟩ rest q := by
  constructor
  · intro hq
    cases xs with
    | nil => exact absurd hq hnil
    | cons x xs =>
      rcases hother x with ⟨a, rfl⟩ | ⟨fault, hfault⟩
      · exact ⟨a, xs, rfl, (completes_enter (hnext a)).1 hq⟩
      · exact absurd hq (not_completes hfault)
  · rintro ⟨a, rest, rfl, hq⟩
    exact (completes_enter (hnext a)).2 hq

/-- A state that takes a symbol only. -/
theorem completes_symbol_iff {what : Wanted} {next : String → State}
    (h : ∀ found, σ.step host draft .start found =
      State.onSymbol what found fun word => .ok (.enter (next word))) :
    Completes host ⟨draft, uses, σ⟩ xs q ↔
      ∃ word rest, xs = .symbol word :: rest ∧ Completes host ⟨draft, uses, next word⟩ rest q := by
  refine completes_one_iff .symbol next (fun word => h _) (fun x => ?_) (not_completes_nil (h _))
  cases x with
  | symbol word => exact Or.inl ⟨word, rfl⟩
  | number | string | comment | operator | openScope | closeScope | endLine | openMeta | closeMeta =>
    exact Or.inr ⟨_, h _⟩

/-- Behind the name of a constant comes its value. -/
theorem completes_constantValue_iff {name constant : String} {read : Array Constant} :
    Completes host ⟨draft, uses, .constantValue name read constant⟩ xs q ↔
      ∃ value rest, xs = .number value :: rest ∧
        Completes host ⟨draft, uses, .entry (.constant name read constant value)⟩ rest q := by
  refine completes_one_iff .number _ (fun value => rfl) (fun x => ?_) (not_completes_nil rfl)
  cases x with
  | number value => exact Or.inl ⟨value, rfl⟩
  | symbol | string | comment | operator | openScope | closeScope | endLine | openMeta | closeMeta =>
    exact Or.inr ⟨_, rfl⟩

/-- Behind the meta data of a first line comes the scope. -/
theorem completes_opening_iff {body : Body} :
    Completes host ⟨draft, uses, .opening body⟩ xs q ↔
      ∃ rest, xs = .openScope :: rest ∧ Completes host ⟨draft, uses, .inBody body⟩ rest q := by
  refine (completes_one_iff (fun _ : Unit => .openScope) (fun _ => .inBody body) (fun _ => rfl)
    (fun x => ?_) (not_completes_nil rfl)).trans (exists_const Unit)
  cases x with
  | openScope => exact Or.inl ⟨(), rfl⟩
  | symbol | number | string | comment | operator | closeScope | endLine | openMeta | closeMeta =>
    exact Or.inr ⟨_, rfl⟩

/-- Behind the meta data of a line comes its end. -/
theorem completes_entryEnd_iff {e : Entry} {metadata : Metadata} :
    Completes host ⟨draft, uses, .entryEnd e metadata⟩ xs q ↔
      ∃ rest, xs = .endLine :: rest ∧
        Completes host ⟨draft, uses, .inBody (e.close metadata)⟩ rest q := by
  refine (completes_one_iff (fun _ : Unit => .endLine) (fun _ => .inBody (e.close metadata))
    (fun _ => rfl) (fun x => ?_) (not_completes_nil_of_inBody rfl)).trans (exists_const Unit)
  cases x with
  | endLine => exact Or.inl ⟨(), rfl⟩
  | symbol | number | string | comment | operator | openScope | closeScope | openMeta | closeMeta =>
    exact Or.inr ⟨_, rfl⟩

/-! ## Meta data -/

/-- Behind an opening bracket come keys with their values, and the closing bracket. -/
theorem completes_metaKey_iff {holder : MetaHolder} {read : Metadata} :
    Completes host ⟨draft, uses, .metaKey holder read⟩ xs q ↔
      ∃ (pairs : Pairs) (rest : List Lexeme), xs = pairs.lexemes ++ .closeMeta :: rest ∧
        Completes host ⟨draft, uses, holder.after (pairs.foldl
          (fun read pair => read.insert pair.1 pair.2) read)⟩ rest q := by
  constructor
  · intro hq
    -- A key is taken together with its value, so the rest is shorter by two.
    induction hn : xs.length using Nat.strongRecOn generalizing xs read with
    | ind n ih =>
      cases xs with
      | nil => exact absurd hq (not_completes_nil rfl)
      | cons x xs =>
        cases x with
        | closeMeta => exact ⟨[], xs, rfl, (completes_enter rfl).1 hq⟩
        | symbol key =>
          have hq := (completes_enter rfl).1 hq
          cases xs with
          | nil => exact absurd hq (not_completes_nil rfl)
          | cons x xs =>
            cases x with
            | string value =>
              have hshort : xs.length < n := by
                rw [← hn, List.length_cons, List.length_cons]
                omega
              obtain ⟨pairs, rest, rfl, hrest⟩ := ih xs.length hshort ((completes_enter rfl).1 hq) rfl
              exact ⟨(key, value) :: pairs, rest, rfl, hrest⟩
            | symbol | number | comment | operator | openScope | closeScope | endLine | openMeta
            | closeMeta => exact absurd hq (not_completes rfl)
        | number | string | comment | operator | openScope | closeScope | endLine | openMeta =>
          exact absurd hq (not_completes rfl)
  · rintro ⟨pairs, rest, rfl, hq⟩
    induction pairs generalizing read with
    | nil => exact (completes_enter rfl).2 hq
    | cons pair pairs ih =>
      exact (completes_enter rfl).2 ((completes_enter rfl).2 (ih hq))

/-- Meta data or none, and then `mark`. -/
theorem completes_bracketed_iff (holder : MetaHolder) (mark : Lexeme) (next : Metadata → State)
    (hopens : σ.step host draft .start (some .openMeta) = .ok (.enter (.metaKey holder .empty)))
    (hmark : σ.step host draft .start (some mark) = .ok (.enter (next .empty)))
    (hother : ∀ x, x = .openMeta ∨ x = mark ∨
      ∃ fault, σ.step host draft .start (some x) = .error fault)
    (hnil : ¬ Completes host ⟨draft, uses, σ⟩ [] q)
    (hafter : ∀ metadata xs, Completes host ⟨draft, uses, holder.after metadata⟩ xs q ↔
      ∃ rest, xs = mark :: rest ∧ Completes host ⟨draft, uses, next metadata⟩ rest q) :
    Completes host ⟨draft, uses, σ⟩ xs q ↔
      ∃ pairs? rest, xs = Pairs.bracketed pairs? ++ mark :: rest ∧
        Completes host ⟨draft, uses, next (Pairs.metadata pairs?)⟩ rest q := by
  constructor
  · intro hq
    cases xs with
    | nil => exact absurd hq hnil
    | cons x xs =>
      -- Without a bracket the state stands where it would stand behind empty meta data.
      rcases hother x with rfl | rfl | ⟨fault, hfault⟩
      · obtain ⟨pairs, tail, rfl, htail⟩ := completes_metaKey_iff.1 ((completes_enter hopens).1 hq)
        obtain ⟨rest, rfl, hrest⟩ := (hafter _ tail).1 htail
        exact ⟨some pairs, rest, by simp [Pairs.bracketed], hrest⟩
      · exact ⟨none, xs, rfl, (completes_enter hmark).1 hq⟩
      · exact absurd hq (not_completes hfault)
  · rintro ⟨pairs?, rest, rfl, hq⟩
    cases pairs? with
    | none => exact (completes_enter hmark).2 hq
    | some pairs =>
      have htail := completes_metaKey_iff.2 ⟨pairs, mark :: rest, rfl, (hafter _ _).2 ⟨rest, rfl, hq⟩⟩
      simpa [Pairs.bracketed] using (completes_enter hopens).2 htail

/-- A line of a scope. -/
theorem completes_entry_iff {e : Entry} :
    Completes host ⟨draft, uses, .entry e⟩ xs q ↔
      ∃ pairs? rest, xs = Pairs.bracketed pairs? ++ .endLine :: rest ∧
        Completes host ⟨draft, uses, .inBody (e.close (Pairs.metadata pairs?))⟩ rest q := by
  refine completes_bracketed_iff (.entry e) .endLine (fun metadata => .inBody (e.close metadata))
    rfl rfl (fun x => ?_) (not_completes_nil_of_inBody rfl) fun _ _ => completes_entryEnd_iff
  cases x with
  | openMeta => exact Or.inl rfl
  | endLine => exact Or.inr (Or.inl rfl)
  | symbol | number | string | comment | operator | openScope | closeScope | closeMeta =>
    exact Or.inr (Or.inr ⟨_, rfl⟩)

/-- The first line of a declaration, up to its scope. -/
theorem completes_header_iff {header : Header} :
    Completes host ⟨draft, uses, .header header⟩ xs q ↔
      ∃ pairs? rest, xs = Pairs.bracketed pairs? ++ .openScope :: rest ∧
        Completes host ⟨draft, uses, .inBody (header.body (Pairs.metadata pairs?))⟩ rest q := by
  refine completes_bracketed_iff (.header header) .openScope
    (fun metadata => .inBody (header.body metadata)) rfl rfl (fun x => ?_) (not_completes_nil rfl)
    fun _ _ => completes_opening_iff
  cases x with
  | openMeta => exact Or.inl rfl
  | openScope => exact Or.inr (Or.inl rfl)
  | symbol | number | string | comment | operator | closeScope | endLine | closeMeta =>
    exact Or.inr (Or.inr ⟨_, rfl⟩)

/-! ## Scopes -/

section Scope

variable {α Line : Type} (scope : α → Body) (write : Line → List Lexeme)

/-- Lines of one sort up to the end of their scope, if every single line is read as `add` says. -/
theorem completes_scope_iff (add : α → Line → Option α)
    (hword : ∀ line, ∃ word tail, write line = .symbol word :: tail)
    (hline : ∀ a word xs, Completes host ⟨draft, uses, .inBody (scope a)⟩ (.symbol word :: xs) q ↔
      ∃ line a' rest, .symbol word :: xs = write line ++ rest ∧ add a line = some a' ∧
        Completes host ⟨draft, uses, .inBody (scope a')⟩ rest q) {a : α} :
    Completes host ⟨draft, uses, .inBody (scope a)⟩ xs q ↔
      ∃ (lines : List Line) (a' : α) (rest : List Lexeme),
        xs = lines.flatMap write ++ .closeScope :: rest ∧ lines.foldlM add a = some a' ∧
        Completes host ⟨draft, uses, .inBody (scope a')⟩ (.closeScope :: rest) q := by
  constructor
  · intro hq
    -- A line has at least its first word, so what follows it is shorter.
    induction hn : xs.length using Nat.strongRecOn generalizing xs a with
    | ind n ih =>
      cases xs with
      | nil => exact absurd hq not_completes_inBody_nil
      | cons x xs =>
        cases x with
        | closeScope => exact ⟨[], a, xs, rfl, rfl, hq⟩
        | symbol word =>
          obtain ⟨line, a', tail, htail, hadd, hq'⟩ := (hline a word xs).1 hq
          have hshort : tail.length < n := by
            obtain ⟨_, _, hwrite⟩ := hword line
            rw [hwrite, List.cons_append, List.cons.injEq] at htail
            rw [← hn, htail.2, List.length_cons, List.length_append]
            omega
          obtain ⟨lines, b, rest, rfl, hadds, hrest⟩ := ih tail.length hshort hq' rfl
          refine ⟨line :: lines, b, rest, ?_, ?_, hrest⟩
          · rw [htail, List.flatMap_cons, List.append_assoc]
          · rw [List.foldlM_cons, hadd]
            exact hadds
        | number | string | comment | operator | openScope | endLine | openMeta | closeMeta =>
          exact absurd hq (not_completes rfl)
  · rintro ⟨lines, a', rest, rfl, hadds, hq⟩
    induction lines generalizing a with
    | nil =>
      cases hadds
      exact hq
    | cons line lines ih =>
      rw [List.foldlM_cons] at hadds
      obtain ⟨b, hadd, hadds⟩ := Option.bind_eq_some_iff.1 hadds
      obtain ⟨word, tail, hwrite⟩ := hword line
      rw [List.flatMap_cons, hwrite, List.cons_append, List.cons_append]
      refine (hline a word _).2 ⟨line, b, _, ?_, hadd, ih hadds⟩
      rw [hwrite, List.cons_append, List.append_assoc]

/-- The scope of a declaration whose lines are taken whatever they say. -/
theorem completes_plainScope_iff (append : α → Line → α) (declaration : α → Declaration)
    (more : α → List FieldUse) (hword : ∀ line, ∃ word tail, write line = .symbol word :: tail)
    (hclose : ∀ a, (scope a).close = .ok (.complete (declaration a) (more a)))
    (hline : ∀ a word xs, Completes host ⟨draft, uses, .inBody (scope a)⟩ (.symbol word :: xs) q ↔
      ∃ line rest, .symbol word :: xs = write line ++ rest ∧
        Completes host ⟨draft, uses, .inBody (scope (append a line))⟩ rest q) {a : α} :
    Completes host ⟨draft, uses, .inBody (scope a)⟩ xs q ↔
      ∃ (lines : List Line) (rest : List Lexeme) (p : Parser),
        xs = lines.flatMap write ++ .closeScope :: rest ∧
        settle? draft uses (.declare (declaration (lines.foldl append a))
          (more (lines.foldl append a))) = some p ∧ p.Completes host rest q := by
  -- At its end the scope completes the declaration with all lines that were read.
  have hends : ∀ a, State.step host draft .start (some .closeScope) (.inBody (scope a)) =
      .ok ⟨.between, .declare (declaration a) (more a)⟩ := hclose
  rw [completes_scope_iff scope write (fun a line => pure (append a line)) hword fun a word xs => ?_]
  · simp only [List.foldlM_pure]
    constructor
    · rintro ⟨lines, a', rest, rfl, hadds, htail⟩
      cases hadds
      obtain ⟨p, hp, hq⟩ := (completes_complete_iff (hends _)).1 htail
      exact ⟨lines, rest, p, rfl, hp, hq⟩
    · rintro ⟨lines, rest, p, rfl, hp, hq⟩
      exact ⟨lines, _, rest, rfl, rfl, (completes_complete_iff (hends _)).2 ⟨p, hp, hq⟩⟩
  · rw [hline]
    constructor
    · rintro ⟨line, rest, hxs, hq⟩
      exact ⟨line, _, rest, hxs, rfl, hq⟩
    · rintro ⟨line, a', rest, hxs, hadd, hq⟩
      cases hadd
      exact ⟨line, rest, hxs, hq⟩

end Scope

/-- A scope of fields. -/
theorem completes_fields_iff {owner : FieldOwner} :
    Completes host ⟨draft, uses, .inBody (.fields owner #[])⟩ xs q ↔
      ∃ (lines : List FieldLine) (rest : List Lexeme) (p : Parser),
        xs = lines.flatMap FieldLine.lexemes ++ .closeScope :: rest ∧
        settle? draft uses (owner.effect lines) = some p ∧ p.Completes host rest q := by
  refine completes_plainScope_iff (.fields owner) FieldLine.lexemes FieldLine.append
    (fun read => owner.declaration (read.toList.map (·.field))) (fun read => owner.uses read.toList)
    (fun line => ⟨_, _, rfl⟩) (fun _ => rfl) fun read name xs => ?_
  constructor
  · intro hq
    obtain ⟨typeName, tail, rfl, htail⟩ :=
      (completes_symbol_iff fun _ => rfl).1 ((completes_enter rfl).1 hq)
    obtain ⟨pairs?, rest, rfl, hrest⟩ := completes_entry_iff.1 htail
    exact ⟨⟨name, typeName, pairs?⟩, rest, by simp [FieldLine.lexemes], hrest⟩
  · rintro ⟨line, rest, hxs, hrest⟩
    simp only [FieldLine.lexemes, List.cons_append, List.append_assoc, List.nil_append,
      List.cons.injEq, Lexeme.symbol.injEq] at hxs
    obtain ⟨rfl, rfl⟩ := hxs
    exact (completes_enter rfl).2 ((completes_symbol_iff fun _ => rfl).2
      ⟨line.typeName, _, rfl, completes_entry_iff.2 ⟨line.pairs?, rest, rfl, hrest⟩⟩)

/-- A scope of constants. -/
theorem completes_constants_iff {name : String} :
    Completes host ⟨draft, uses, .inBody (.constants name #[])⟩ xs q ↔
      ∃ (lines : List ConstantLine) (rest : List Lexeme) (p : Parser),
        xs = lines.flatMap ConstantLine.lexemes ++ .closeScope :: rest ∧
        settle? draft uses (.declare
          (.enumeration ⟨name, (lines.foldl ConstantLine.append #[]).toList⟩) []) = some p ∧
        p.Completes host rest q := by
  refine completes_plainScope_iff (.constants name) ConstantLine.lexemes ConstantLine.append
    (fun read => .enumeration ⟨name, read.toList⟩) (fun _ => [])
    (fun line => ⟨_, _, rfl⟩) (fun _ => rfl) fun read constant xs => ?_
  constructor
  · intro hq
    obtain ⟨value, tail, rfl, htail⟩ := completes_constantValue_iff.1 ((completes_enter rfl).1 hq)
    obtain ⟨pairs?, rest, rfl, hrest⟩ := completes_entry_iff.1 htail
    exact ⟨⟨constant, value, pairs?⟩, rest, by simp [ConstantLine.lexemes], hrest⟩
  · rintro ⟨line, rest, hxs, hrest⟩
    simp only [ConstantLine.lexemes, List.cons_append, List.append_assoc, List.nil_append,
      List.cons.injEq, Lexeme.symbol.injEq] at hxs
    obtain ⟨rfl, rfl⟩ := hxs
    exact (completes_enter rfl).2 (completes_constantValue_iff.2
      ⟨line.value, _, rfl, completes_entry_iff.2 ⟨line.pairs?, rest, rfl, hrest⟩⟩)

/-! ## Levels of detail -/

/-- A scope of items, at whose end the level is added. -/
theorem completes_items_iff {archetype : Archetype} {level : Int} :
    Completes host ⟨draft, uses, .inBody (.items archetype level #[])⟩ xs q ↔
      ∃ (lines : List ItemLine) (items : Array Item) (next : Archetype) (rest : List Lexeme),
        xs = lines.flatMap ItemLine.lexemes ++ .closeScope :: rest ∧
        lines.foldlM (ItemLine.append? host draft) #[] = some items ∧
        archetype.addLod level items.toList = .ok next ∧
        Completes host ⟨draft, uses, .inBody (.lods next)⟩ rest q := by
  rw [completes_scope_iff (.items archetype level) ItemLine.lexemes (ItemLine.append? host draft)
    (fun line => ⟨_, _, rfl⟩) fun read name xs => ?_]
  · constructor
    · rintro ⟨lines, items, rest, rfl, hitems, htail⟩
      -- At the end of its scope the level is added, and has to be the next one still.
      cases hadd : archetype.addLod level items.toList with
      | ok next =>
        refine ⟨lines, items, next, rest, rfl, hitems, hadd, (completes_enter ?_).1 htail⟩
        simp [State.step, State.stepBody, Body.close, hadd]
      | error e =>
        have hstep : State.step host draft .start (some .closeScope)
            (.inBody (.items archetype level items)) = .error (.lod e) := by
          simp [State.step, State.stepBody, Body.close, hadd]
        exact absurd htail (not_completes hstep)
    · rintro ⟨lines, items, next, rest, rfl, hitems, hadd, hq⟩
      refine ⟨lines, items, rest, rfl, hitems, (completes_enter ?_).2 hq⟩
      simp [State.step, State.stepBody, Body.close, hadd]
  · cases hresolve : Body.resolve host draft name with
    | ok type =>
      have hstep : State.step host draft .start (some (.symbol name))
          (.inBody (.items archetype level read)) =
            .ok (.enter (.entry (.item archetype level read type))) := by
        simp [State.step, State.stepBody, Body.startEntry, hresolve]
      rw [completes_enter hstep, completes_entry_iff]
      constructor
      · rintro ⟨pairs?, rest, rfl, hq⟩
        exact ⟨⟨name, pairs?⟩, _, rest, by simp [ItemLine.lexemes],
          by simp [ItemLine.append?, hresolve], hq⟩
      · rintro ⟨line, read', rest, hxs, hadd, hq⟩
        simp only [ItemLine.lexemes, List.cons_append, List.append_assoc, List.nil_append,
          List.cons.injEq, Lexeme.symbol.injEq] at hxs
        obtain ⟨rfl, rfl⟩ := hxs
        simp only [ItemLine.append?, hresolve, Option.some.injEq] at hadd
        subst hadd
        exact ⟨line.pairs?, rest, rfl, hq⟩
    | error fault =>
      have hstep : State.step host draft .start (some (.symbol name))
          (.inBody (.items archetype level read)) = .error fault := by
        simp [State.step, State.stepBody, Body.startEntry, hresolve]
      refine iff_of_false (not_completes hstep) ?_
      rintro ⟨line, read', rest, hxs, hadd, -⟩
      simp only [ItemLine.lexemes, List.cons_append, List.cons.injEq, Lexeme.symbol.injEq] at hxs
      obtain ⟨rfl, -⟩ := hxs
      simp [ItemLine.append?, hresolve] at hadd

/-- Behind the word of a level comes its number, which has to be the next one. -/
theorem completes_lodLevel_iff {archetype : Archetype} :
    Completes host ⟨draft, uses, .lodLevel archetype⟩ xs q ↔
      ∃ level next rest, xs = .number level :: rest ∧ archetype.nextLevel level = .ok next ∧
        Completes host ⟨draft, uses, .opening (.items archetype level #[])⟩ rest q := by
  constructor
  · intro hq
    cases xs with
    | nil => exact absurd hq (not_completes_nil rfl)
    | cons x xs =>
      cases x with
      | number level =>
        -- A number that is not the next one is refused at once.
        cases hnext : archetype.nextLevel level with
        | ok next =>
          refine ⟨level, next, xs, rfl, hnext, (completes_enter ?_).1 hq⟩
          simp [State.step, State.stepLodLevel, State.onNumber, hnext]
        | error e =>
          have hstep : State.step host draft .start (some (.number level)) (.lodLevel archetype) =
              .error (.lod e) := by
            simp [State.step, State.stepLodLevel, State.onNumber, hnext]
          exact absurd hq (not_completes hstep)
      | symbol | string | comment | operator | openScope | closeScope | endLine | openMeta | closeMeta =>
        exact absurd hq (not_completes rfl)
  · rintro ⟨level, next, rest, rfl, hnext, hq⟩
    refine (completes_enter ?_).2 hq
    simp [State.step, State.stepLodLevel, State.onNumber, hnext]

/-- A level that can be added is the next one. -/
theorem exists_nextLevel_of_addLod {archetype next : Archetype} {level : Int} {items : List Item}
    (h : archetype.addLod level items = .ok next) : ∃ n, archetype.nextLevel level = .ok n := by
  unfold Archetype.addLod at h
  cases hn : archetype.nextLevel level with
  | ok n => exact ⟨n, rfl⟩
  | error e =>
    rw [hn] at h
    cases h

/-- A scope of levels of detail. -/
theorem completes_lods_iff {archetype : Archetype} :
    Completes host ⟨draft, uses, .inBody (.lods archetype)⟩ xs q ↔
      ∃ (blocks : List LodBlock) (next : Archetype) (rest : List Lexeme) (p : Parser),
        xs = blocks.flatMap LodBlock.lexemes ++ .closeScope :: rest ∧
        blocks.foldlM (LodBlock.append? host draft) archetype = some next ∧
        settle? draft uses (.declare (.archetype next) []) = some p ∧ p.Completes host rest q := by
  rw [completes_scope_iff .lods LodBlock.lexemes (LodBlock.append? host draft)
    (fun block => ⟨_, _, rfl⟩) fun archetype word xs => ?_]
  · constructor
    · rintro ⟨blocks, next, rest, rfl, hnext, htail⟩
      obtain ⟨p, hp, hq⟩ := (completes_complete_iff rfl).1 htail
      exact ⟨blocks, next, rest, p, rfl, hnext, hp, hq⟩
    · rintro ⟨blocks, next, rest, p, rfl, hnext, hp, hq⟩
      exact ⟨blocks, next, rest, rfl, hnext, (completes_complete_iff rfl).2 ⟨p, hp, hq⟩⟩
  · by_cases hword : word = "lod"
    · subst hword
      rw [completes_enter rfl, completes_lodLevel_iff]
      constructor
      · rintro ⟨level, n, tail, rfl, -, htail⟩
        obtain ⟨tail, rfl, htail⟩ := completes_opening_iff.1 htail
        obtain ⟨lines, items, next, rest, rfl, hitems, hadd, hq⟩ := completes_items_iff.1 htail
        exact ⟨⟨level, lines⟩, next, rest, by simp [LodBlock.lexemes],
          LodBlock.append?_eq_some_iff.2 ⟨items, hitems, hadd⟩, hq⟩
      · rintro ⟨block, next, rest, hxs, happend, hq⟩
        obtain ⟨items, hitems, hadd⟩ := LodBlock.append?_eq_some_iff.1 happend
        -- The level was looked at when its number was read, and could be added then.
        obtain ⟨n, hn⟩ := exists_nextLevel_of_addLod hadd
        simp only [LodBlock.lexemes, List.cons_append, List.append_assoc, List.nil_append,
          List.cons.injEq, true_and] at hxs
        subst hxs
        exact ⟨block.level, n, _, rfl, hn, completes_opening_iff.2 ⟨_, rfl, completes_items_iff.2
          ⟨block.items, items, next, rest, rfl, hitems, hadd, hq⟩⟩⟩
    · have hstep : State.step host draft .start (some (.symbol word)) (.inBody (.lods archetype)) =
          .error (.expectedLod (some (.symbol word))) := by
        simp [State.step, State.stepBody, Body.startEntry, hword]
      refine iff_of_false (not_completes hstep) ?_
      · rintro ⟨block, next, rest, hxs, -, -⟩
        simp only [LodBlock.lexemes, List.cons_append, List.cons.injEq, Lexeme.symbol.injEq] at hxs
        exact hword hxs.1

end Parser

end EntitySchema
