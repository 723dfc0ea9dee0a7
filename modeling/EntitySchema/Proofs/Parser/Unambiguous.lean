import EntitySchema.Proofs.Parser.Grammar
/-!
  The grammar is unambiguous.

  What stands at the front of a part of a description says which part it is and where it ends, so no list of
  lexemes is a description in two ways.  A part of one sort `Decodes` if what is written of it determines it
  and what comes behind it:

      write a ++ xs = write b ++ ys  →  a = b ∧ xs = ys

  * Repetition keeps this, if what follows does not go on like one more part (`Decodes.flatMap`).
  * Brackets keep it, if what follows does not start with one (`Pairs.bracketed_unique`).
  * The lines of a scope are told from its end, so scopes decode (`Decodes.scope`), and with them
    declarations.
  * A clause is told by its keyword, and a command with fields from one with a parameter by what stands behind
    its name (`Clause.unique`).

  Clauses one after the other follow by induction on the description: `Program.unique`.
-/

namespace EntitySchema

/-! ## Parts of one sort -/

/-- Whatever comes behind it, what is written determines what was meant. -/
def Decodes {α : Type} (write : α → List Lexeme) : Prop :=
  ∀ a b xs ys, write a ++ xs = write b ++ ys → a = b ∧ xs = ys

/-- Parts one after the other are determined by what is written, if what follows does not go on like one
more of them. -/
theorem Decodes.flatMap {α : Type} {write : α → List Lexeme} (h : Decodes write) {as bs : List α}
    {xs ys : List Lexeme} (hx : ∀ a zs, xs ≠ write a ++ zs) (hy : ∀ a zs, ys ≠ write a ++ zs)
    (heq : as.flatMap write ++ xs = bs.flatMap write ++ ys) : as = bs ∧ xs = ys := by
  induction as generalizing bs with
  | nil =>
    cases bs with
    | nil => exact ⟨rfl, heq⟩
    | cons b bs =>
      rw [List.flatMap_cons, List.append_assoc] at heq
      exact absurd heq (hx b _)
  | cons a as ih =>
    cases bs with
    -- One list would have to go on where the other is done, against what follows.
    | nil =>
      rw [List.flatMap_cons, List.append_assoc] at heq
      exact absurd heq.symm (hy a _)
    | cons b bs =>
      rw [List.flatMap_cons, List.flatMap_cons, List.append_assoc, List.append_assoc] at heq
      obtain ⟨rfl, hmore⟩ := h a b _ _ heq
      obtain ⟨rfl, hxy⟩ := ih hmore
      exact ⟨rfl, hxy⟩

namespace Pairs

/-- A key and its value are determined. -/
theorem decodes_pair :
    Decodes fun pair : String × String => [Lexeme.symbol pair.1, .string pair.2] := by
  rintro ⟨k, v⟩ ⟨k', v'⟩ xs ys h
  simpa [and_assoc] using h

/-- Meta data is determined, if what follows does not start with a bracket. -/
theorem bracketed_unique {p q : Option Pairs} {xs ys : List Lexeme}
    (hx : ∀ zs, xs ≠ .openMeta :: zs) (hy : ∀ zs, ys ≠ .openMeta :: zs)
    (h : bracketed p ++ xs = bracketed q ++ ys) : p = q ∧ xs = ys := by
  cases p with
  | none =>
    cases q with
    | none => exact ⟨rfl, h⟩
    | some => exact absurd h (hx _)
  | some p =>
    cases q with
    | none => exact absurd h.symm (hy _)
    | some q =>
      simp only [bracketed, lexemes, List.cons_append, List.append_assoc, List.nil_append,
        List.cons.injEq, true_and] at h
      obtain ⟨rfl, hrest⟩ := decodes_pair.flatMap (by simp) (by simp) h
      exact ⟨rfl, (List.cons.inj hrest).2⟩

end Pairs

/-! ## Lines and scopes -/

/-- Lines of fields are determined. -/
theorem FieldLine.decodes : Decodes lexemes := by
  rintro ⟨name, typeName, p⟩ ⟨name', typeName', p'⟩ xs ys h
  simp only [lexemes, List.cons_append, List.append_assoc, List.nil_append, List.cons.injEq,
    Lexeme.symbol.injEq] at h
  obtain ⟨rfl, rfl, h⟩ := h
  obtain ⟨rfl, hrest⟩ := Pairs.bracketed_unique (by simp) (by simp) h
  exact ⟨rfl, (List.cons.inj hrest).2⟩

/-- Lines of constants are determined. -/
theorem ConstantLine.decodes : Decodes lexemes := by
  rintro ⟨name, value, p⟩ ⟨name', value', p'⟩ xs ys h
  simp only [lexemes, List.cons_append, List.append_assoc, List.nil_append, List.cons.injEq,
    Lexeme.symbol.injEq, Lexeme.number.injEq] at h
  obtain ⟨rfl, rfl, h⟩ := h
  obtain ⟨rfl, hrest⟩ := Pairs.bracketed_unique (by simp) (by simp) h
  exact ⟨rfl, (List.cons.inj hrest).2⟩

/-- Lines of items are determined. -/
theorem ItemLine.decodes : Decodes lexemes := by
  rintro ⟨name, p⟩ ⟨name', p'⟩ xs ys h
  simp only [lexemes, List.cons_append, List.append_assoc, List.nil_append, List.cons.injEq,
    Lexeme.symbol.injEq] at h
  obtain ⟨rfl, h⟩ := h
  obtain ⟨rfl, hrest⟩ := Pairs.bracketed_unique (by simp) (by simp) h
  exact ⟨rfl, (List.cons.inj hrest).2⟩

/-- The lines of a scope are determined, since none of them starts with the end of the scope. -/
theorem Decodes.scope {α : Type} {write : α → List Lexeme} (h : Decodes write)
    (hstart : ∀ a zs ws, .closeScope :: zs ≠ write a ++ ws) {as bs : List α} {xs ys : List Lexeme}
    (heq : as.flatMap write ++ .closeScope :: xs = bs.flatMap write ++ .closeScope :: ys) :
    as = bs ∧ xs = ys := by
  obtain ⟨rfl, hrest⟩ := h.flatMap (fun a => hstart a xs) (fun a => hstart a ys) heq
  exact ⟨rfl, (List.cons.inj hrest).2⟩

section Declarations

variable {α : Type} {write : α → List Lexeme} {word name name' : String} {as bs : List α}
  {xs ys : List Lexeme}

/-- The name and the scope of a declaration are determined. -/
theorem Decodes.declaration (h : Decodes write) (hstart : ∀ a zs ws, .closeScope :: zs ≠ write a ++ ws)
    (heq : (.symbol word :: .symbol name :: .openScope :: as.flatMap write ++ [.closeScope]) ++ xs =
      (.symbol word :: .symbol name' :: .openScope :: bs.flatMap write ++ [.closeScope]) ++ ys) :
    name = name' ∧ as = bs ∧ xs = ys := by
  simp only [List.cons_append, List.append_assoc, List.nil_append, List.cons.injEq, Lexeme.symbol.injEq,
    true_and] at heq
  obtain ⟨hname, hbody⟩ := heq
  exact ⟨hname, h.scope hstart hbody⟩

/-- So are the name, the meta data and the scope of one. -/
theorem Decodes.declaration_bracketed (h : Decodes write)
    (hstart : ∀ a zs ws, .closeScope :: zs ≠ write a ++ ws) {p q : Option Pairs}
    (heq : (.symbol word :: .symbol name :: Pairs.bracketed p ++
        .openScope :: as.flatMap write ++ [.closeScope]) ++ xs =
      (.symbol word :: .symbol name' :: Pairs.bracketed q ++
        .openScope :: bs.flatMap write ++ [.closeScope]) ++ ys) :
    name = name' ∧ p = q ∧ as = bs ∧ xs = ys := by
  simp only [List.cons_append, List.append_assoc, List.nil_append, List.cons.injEq, Lexeme.symbol.injEq,
    true_and] at heq
  obtain ⟨hname, hmore⟩ := heq
  obtain ⟨hpairs, hbody⟩ := Pairs.bracketed_unique (by simp) (by simp) hmore
  exact ⟨hname, hpairs, h.scope hstart (List.cons.inj hbody).2⟩

end Declarations

/-- Levels of detail are determined. -/
theorem LodBlock.decodes : Decodes lexemes := by
  rintro ⟨level, items⟩ ⟨level', items'⟩ xs ys h
  simp only [lexemes, List.cons_append, List.append_assoc, List.nil_append, List.cons.injEq,
    Lexeme.number.injEq, true_and] at h
  obtain ⟨rfl, h⟩ := h
  obtain ⟨rfl, rfl⟩ := ItemLine.decodes.scope (by simp [ItemLine.lexemes]) h
  exact ⟨rfl, rfl⟩

/-! ## Clauses -/

/-- A line ends before one list only. -/
theorem LineEnd.unique {xs rest rest' : List Lexeme} (h : LineEnd xs rest) (h' : LineEnd xs rest') :
    rest = rest' := by
  cases h <;> cases h' <;> rfl

/-- A part of a namespace is determined, with the dot before it. -/
theorem decodes_dotted :
    Decodes fun part : String => [Lexeme.operator '.', .symbol part] := by
  intro a b xs ys h
  simpa using h

namespace Clause

variable {c d : Clause} {xs ys rest rest' : List Lexeme}

/-- Every clause starts with a word. -/
theorem exists_lexemes_eq (c : Clause) : ∃ word more, c.lexemes = .symbol word :: more := by
  cases c <;> exact ⟨_, _, rfl⟩

/-- A clause and what comes behind it are determined by what is written. -/
theorem unique (h : c.lexemes ++ xs = d.lexemes ++ ys) (hc : c.Ends xs rest) (hd : d.Ends ys rest') :
    c = d ∧ rest = rest' := by
  -- Lines that end without a mark end where everything ends.
  have hmore : ∀ {part : String} {tail rest zs : List Lexeme}, LineEnd tail rest →
      tail ≠ [.operator '.', .symbol part] ++ zs := by
    rintro part tail rest zs (_ | _) <;> simp
  -- Clauses with different keywords differ at the first word.
  cases c with
  | namespaceLine first more =>
    cases d with
    | namespaceLine =>
      simp only [lexemes, dotted, List.cons_append, List.cons.injEq, Lexeme.symbol.injEq, true_and] at h
      obtain ⟨rfl, h⟩ := h
      obtain ⟨rfl, rfl⟩ := decodes_dotted.flatMap (fun _ _ => hmore hc) (fun _ _ => hmore hd) h
      exact ⟨rfl, hc.unique hd⟩
    | _ => simp [lexemes] at h
  | nameLine name =>
    cases d with
    | nameLine =>
      simp only [lexemes, List.cons_append, List.nil_append, List.cons.injEq, Lexeme.symbol.injEq,
        true_and] at h
      obtain ⟨rfl, rfl⟩ := h
      exact ⟨rfl, hc.unique hd⟩
    | _ => simp [lexemes] at h
  | component name pairs? fields =>
    cases d with
    | component =>
      cases hc
      cases hd
      obtain ⟨rfl, rfl, rfl, rfl⟩ := FieldLine.decodes.declaration_bracketed (by simp [FieldLine.lexemes]) h
      exact ⟨rfl, rfl⟩
    | _ => simp [lexemes] at h
  | event name pairs? fields =>
    cases d with
    | event =>
      cases hc
      cases hd
      obtain ⟨rfl, rfl, rfl, rfl⟩ := FieldLine.decodes.declaration_bracketed (by simp [FieldLine.lexemes]) h
      exact ⟨rfl, rfl⟩
    | _ => simp [lexemes] at h
  | type name fields =>
    cases d with
    | type =>
      cases hc
      cases hd
      obtain ⟨rfl, rfl, rfl⟩ := FieldLine.decodes.declaration (by simp [FieldLine.lexemes]) h
      exact ⟨rfl, rfl⟩
    | _ => simp [lexemes] at h
  | buffer name fields =>
    cases d with
    | buffer =>
      cases hc
      cases hd
      obtain ⟨rfl, rfl, rfl⟩ := FieldLine.decodes.declaration (by simp [FieldLine.lexemes]) h
      exact ⟨rfl, rfl⟩
    | _ => simp [lexemes] at h
  | enumeration name constants =>
    cases d with
    | enumeration =>
      cases hc
      cases hd
      obtain ⟨rfl, rfl, rfl⟩ := ConstantLine.decodes.declaration (by simp [ConstantLine.lexemes]) h
      exact ⟨rfl, rfl⟩
    | _ => simp [lexemes] at h
  | signature name parameterType returnType =>
    cases d with
    | signature =>
      simp only [lexemes, List.cons_append, List.nil_append, List.cons.injEq, Lexeme.symbol.injEq,
        true_and] at h
      obtain ⟨rfl, rfl, rfl, rfl⟩ := h
      exact ⟨rfl, hc.unique hd⟩
    | _ => simp [lexemes] at h
  | command name fields =>
    cases d with
    | command =>
      cases hc
      cases hd
      obtain ⟨rfl, rfl, rfl⟩ := FieldLine.decodes.declaration (by simp [FieldLine.lexemes]) h
      exact ⟨rfl, rfl⟩
    | _ => simp [lexemes] at h
  | archetype name pairs? lods =>
    cases d with
    | archetype =>
      cases hc
      cases hd
      obtain ⟨rfl, rfl, rfl, rfl⟩ := LodBlock.decodes.declaration_bracketed (by simp [LodBlock.lexemes]) h
      exact ⟨rfl, rfl⟩
    | _ => simp [lexemes] at h

end Clause

/-! ## Descriptions -/

/-- The three forms of a description. -/
theorem Program.inversion {cs : List Clause} {xs : List Lexeme} (h : Program cs xs) :
    (cs = [] ∧ xs = []) ∨ (∃ rest, xs = .endLine :: rest ∧ Program cs rest) ∨
      ∃ c more tail rest, cs = c :: more ∧ xs = c.lexemes ++ tail ∧ c.Ends tail rest ∧
        Program more rest := by
  cases h with
  | nil => exact Or.inl ⟨rfl, rfl⟩
  | blank h => exact Or.inr (Or.inl ⟨_, rfl, h⟩)
  | clause hends h => exact Or.inr (Or.inr ⟨_, _, _, _, rfl, rfl, hends, h⟩)

/-- No list of lexemes is a description in two ways. -/
theorem Program.unique {cs ds : List Clause} {xs : List Lexeme} (h : Program cs xs)
    (h' : Program ds xs) : cs = ds := by
  -- The first lexeme tells an end of line from a clause, and then the induction goes on behind either.
  induction h generalizing ds with
  | nil =>
    rcases h'.inversion with ⟨rfl, -⟩ | ⟨_, hnil, -⟩ | ⟨d, _, _, _, -, hnil, -⟩
    · rfl
    · cases hnil
    · obtain ⟨word, more, hd⟩ := d.exists_lexemes_eq
      rw [hd] at hnil
      cases hnil
  | blank _ ih =>
    rcases h'.inversion with ⟨-, hcons⟩ | ⟨_, hcons, hrest⟩ | ⟨d, _, _, _, -, hcons, -⟩
    · cases hcons
    · cases hcons
      exact ih hrest
    · obtain ⟨word, more, hd⟩ := d.exists_lexemes_eq
      rw [hd] at hcons
      cases hcons
  | @clause c _ _ _ hends _ ih =>
    obtain ⟨word, more, hc⟩ := c.exists_lexemes_eq
    rcases h'.inversion with ⟨-, hcons⟩ | ⟨_, hcons, -⟩ | ⟨d, _, _, _, rfl, heq, hends', hrest⟩
    · rw [hc] at hcons
      cases hcons
    · rw [hc] at hcons
      cases hcons
    · obtain ⟨rfl, rfl⟩ := Clause.unique heq hends hends'
      rw [ih hrest]

end EntitySchema
