import EntitySchema.Proofs.Edits.Concatenation
import EntitySchema.Proofs.Parser.Described
/-!
  More declarations behind a source.

  A protocol grows by what is declared behind it, and nothing that was declared before is looked at again.
  `p.Grows q` says that of every kind the declarations of `p` are the first ones of `q`; it is reflexive and
  transitive, so it is enough to see what one step does.  No step of a parser does more to its draft than to
  put one declaration behind the others of its kind (`grows_feed`), with the number of those for an index.  So
  the declarations of a run stand in front of those that come later, member for member (`grows_completes`).

  What is left to see is that the declarations of the first source are complete where it ends.

  1. Behind a source that ends in a newline no line is open, so its last lexeme is a mark.

  2. A parser is idle behind a mark (`isIdle_of_feedLexemes`).

  3. An idle parser that takes the end of the source has no declaration open, so the end has told it nothing
     new (`eq_of_completes`).

  The parser that read the first source alone and the one that reads on into the second are therefore the same
  one where the first source ends.

  Main statement: `parse_append`.
-/

namespace EntitySchema

/-! ## Growing protocols -/

/-- The declarations of `p` are the first ones of `q`, kind by kind. -/
def Protocol.Grows (p q : Protocol) : Prop :=
  ∀ k, (p.declarations k).toList <+: (q.declarations k).toList

namespace Protocol

variable {p q r : Protocol}

/-- Every protocol grows into itself. -/
theorem Grows.refl (p : Protocol) : p.Grows p := fun _ => List.prefix_refl _

/-- To grow twice is to grow. -/
theorem Grows.trans (h : p.Grows q) (h' : q.Grows r) : p.Grows r := fun k => (h k).trans (h' k)

/-- Only the declarations matter. -/
theorem grows_of_declarations_eq (h : ∀ k, q.declarations k = p.declarations k) : p.Grows q := fun k =>
  h k ▸ List.prefix_refl _

/-- One more declaration comes behind the others of its kind. -/
theorem grows_add (p : Protocol) (d : Declaration) : p.Grows (p.add d) := by
  intro k
  rw [declarations_add]
  exact List.prefix_append _ _

end Protocol

namespace Parser

variable {host : HostTypes} {place : Position} {p q mid : Parser} {xs : List Lexeme}

/-! ## Growing drafts -/

/-- An effect adds a declaration or none. -/
theorem grows_apply {effect : Effect} {draft draft' : Draft} {uses uses' : Array FieldUse}
    (h : apply effect draft uses = .ok (draft', uses')) : draft.protocol.Grows draft'.protocol := by
  cases effect with
  | nothing =>
    cases h
    exact .refl _
  | setNamespace | setName =>
    cases h
    exact Protocol.grows_of_declarations_eq fun k => by cases k <;> rfl
  | declare x more =>
    simp only [apply] at h
    split at h
    · next index added hadd =>
      cases h
      rw [Draft.protocol_add_of_ok hadd]
      exact Protocol.grows_add _ x
    · cases h

/-- Whatever a parser takes, its draft grows. -/
theorem grows_feed {found : Option Lexeme} (h : p.feed host place found = .ok q) :
    p.draft.protocol.Grows q.draft.protocol := by
  obtain ⟨move, -, happly, -⟩ := feed_eq_ok_iff.1 h
  exact grows_apply happly

/-- Over lexemes in a row a draft grows. -/
theorem grows_feedLexemes (h : p.feedLexemes host xs = .ok q) :
    p.draft.protocol.Grows q.draft.protocol := by
  induction xs generalizing p with
  | nil =>
    cases h
    exact .refl _
  | cons x xs ih =>
    obtain ⟨mid, hfirst, hmore⟩ := feedLexemes_cons.1 h
    exact (grows_feed hfirst).trans (ih hmore)

/-- And over all of a source. -/
theorem grows_completes (h : p.Completes host xs q) : p.draft.protocol.Grows q.draft.protocol := by
  obtain ⟨mid, last, hmid, hlast, hq⟩ := h
  exact (grows_feedLexemes hmid).trans ((grows_feed hlast).trans (grows_feed hq))

/-! ## Complete declarations -/

/-- Behind lexemes of which the last is a mark a parser is idle. -/
theorem isIdle_of_feedLexemes (hidle : p.state.isIdle)
    (hlast : ∀ x ∈ xs.getLast?, x = .openScope ∨ x = .closeScope ∨ x = .endLine)
    (h : p.feedLexemes host xs = .ok q) : q.state.isIdle := by
  rcases List.eq_nil_or_concat xs with rfl | ⟨front, x, rfl⟩
  · cases h
    exact hidle
  rw [List.concat_eq_append] at h hlast
  obtain ⟨mid, -, hmore⟩ := feedLexemes_append.1 h
  obtain ⟨q', hfeed, hq⟩ := feedLexemes_cons.1 hmore
  cases hq
  obtain ⟨move, hstep, -, hstate⟩ := feed_eq_ok_iff.1 hfeed
  rw [← hstate]
  exact State.isIdle_of_mark (hlast x List.getLast?_concat) hstep

/-- An idle parser learns nothing from the end of the source. -/
theorem eq_of_completes (hmid : p.feedLexemes host xs = .ok mid) (hidle : mid.state.isIdle)
    (h : p.Completes host xs q) : q = mid := by
  obtain ⟨mid', last, hmid', hlast, hq⟩ := h
  cases hmid.symm.trans hmid'
  obtain rfl := eq_of_feed_none hidle hlast
  exact eq_of_feed_none hidle hq

end Parser

/-! ## Two sources -/

/-- A lexeme that is neither content nor a comment is a mark. -/
theorem Lexeme.mark_of_not_isContent {x : Lexeme} (hcontent : ¬ x.isContent) (hcomment : ¬ x.isComment) :
    x = .openScope ∨ x = .closeScope ∨ x = .endLine := by
  cases x with
  | openScope => exact Or.inl rfl
  | closeScope => exact Or.inr (Or.inl rfl)
  | endLine => exact Or.inr (Or.inr rfl)
  | comment => exact absurd rfl hcomment
  | symbol | number | string | operator | openMeta | closeMeta => exact absurd rfl hcontent

/-- A list that does not end in content ends in a mark, comments being passed over. -/
theorem Token.mark_of_not_endInContent {ts : List Token} (h : ¬ endInContent ts) :
    ∀ x ∈ (meaning ts).getLast?, x = .openScope ∨ x = .closeScope ∨ x = .endLine := by
  intro x hx
  refine Lexeme.mark_of_not_isContent (fun hcontent => h (endInContent_iff.2 ⟨x, hx, hcontent⟩)) ?_
  have hmem := List.mem_of_getLast? hx
  rw [meaning_eq_withoutComments] at hmem
  simpa using (List.mem_filter.1 hmem).2

/-- A protocol starts with what its source starts with.  If a `source` that is empty or ends in a newline is
read as a protocol `r`, and `other`, which starts with a letter, is put behind it, then of every kind `k` the
declarations of `r` are the first declarations of what both are read as, `r'`. -/
theorem parse_append {host : HostTypes} {source other : String} {r r' : Protocol}
    (hsource : source = "" ∨ source.toList.getLast? = some '\n')
    (hother : ∃ c ∈ other.toList.head?, c.isAlpha) (h : parse host source = .ok r)
    (h' : parse host (source ++ other) = .ok r') (k : Kind) :
    (r.declarations k).toList <+: (r'.declarations k).toList := by
  obtain ⟨ts, q, hts, hq, -, rfl⟩ := Parser.parse_eq_ok_iff.1 h
  obtain ⟨us, q', hus, hq', -, rfl⟩ := Parser.parse_eq_ok_iff.1 h'
  obtain ⟨last, hreads, hend⟩ := Lexer.tokenize_eq_ok_iff.1 hts
  obtain ⟨last', hreads', hend'⟩ := Lexer.tokenize_eq_ok_iff.1 hus
  obtain ⟨hfront, hended⟩ := Lexer.reads_append hreads hend hsource hother
  obtain ⟨more, rfl, -⟩ := hreads'.split hend' hfront
  have hclosed : ¬ Token.endInContent ts := by
    rw [Lexer.ended_of_reads hreads] at hended
    simpa using hended
  have hmeaning : Token.meaning (ts ++ more) = Token.meaning ts ++ Token.meaning more := by
    simp only [Token.meaning, Token.withoutComments, List.filter_append, List.map_append]
  rw [hmeaning] at hq'
  -- Both parsers are the same one where the first source ends.
  obtain ⟨last, end', hall, hlast, hq'⟩ := hq'
  obtain ⟨mid, hmid, hmore⟩ := Parser.feedLexemes_append.1 hall
  have hidle := Parser.isIdle_of_feedLexemes rfl (Token.mark_of_not_endInContent hclosed) hmid
  obtain rfl := Parser.eq_of_completes hmid hidle hq
  rw [Draft.declarations_finish, Draft.declarations_finish]
  exact Parser.grows_completes ⟨last, end', hmore, hlast, hq'⟩ k

/-- An archetype whose scopes are open at the end, and a component behind it that does not become its item. -/
theorem parse_append_archetype :
    ∃ r r', parse HostTypes.empty "component A\n  x int\narchetype E\n  lod 0\n    A\n" = .ok r ∧
      parse HostTypes.empty ("component A\n  x int\narchetype E\n  lod 0\n    A\n" ++
        "component B\n  y A\n") = .ok r' ∧
      r'.names .component = ["A", "B"] ∧
      (r.declarations .archetype).toList =
        [.archetype ⟨0, "E", .empty, Fnv.wireId "E", [⟨0, [⟨.component 0, .empty⟩]⟩]⟩] ∧
      (r.declarations .archetype).toList <+: (r'.declarations .archetype).toList := by
  obtain ⟨r, hr⟩ := exists_ok_of_isSome (show (parse HostTypes.empty
    "component A\n  x int\narchetype E\n  lod 0\n    A\n").toOption.isSome by decide +kernel)
  obtain ⟨r', hr'⟩ := exists_ok_of_isSome (show (parse HostTypes.empty
    ("component A\n  x int\narchetype E\n  lod 0\n    A\n" ++ "component B\n  y A\n")).toOption.isSome
      by decide +kernel)
  have hnames : (parse HostTypes.empty ("component A\n  x int\narchetype E\n  lod 0\n    A\n" ++
      "component B\n  y A\n")).toOption.map (fun r => r.names .component) = some ["A", "B"] := by
    decide +kernel
  have harchetypes : (parse HostTypes.empty
      "component A\n  x int\narchetype E\n  lod 0\n    A\n").toOption.map
        (fun r => (r.declarations .archetype).toList) =
      some [.archetype ⟨0, "E", .empty, Fnv.wireId "E", [⟨0, [⟨.component 0, .empty⟩]⟩]⟩] := by
    decide +kernel
  rw [hr'] at hnames
  rw [hr] at harchetypes
  exact ⟨r, r', hr, hr', Option.some.inj hnames, Option.some.inj harchetypes,
    parse_append (Or.inr (by decide +kernel)) ⟨'c', by decide +kernel, by decide⟩ hr hr' .archetype⟩

end EntitySchema
