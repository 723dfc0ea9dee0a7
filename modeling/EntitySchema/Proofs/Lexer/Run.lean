import EntitySchema.Lexer.Source
/-!
  Runs of the lexer.

  `Reads l ts last` says that the steps from `l` lead to `last` and report the tokens `ts` on the way.  It has
  one constructor for each kind of step a run can make, so facts about tokens are proved by induction on runs:

  * `here`: no step at all, and `ts` is empty;
  * `token`: a step that reports `t`, and then the rest of the run reports what is left of `ts`;
  * `silent`: a step that reports nothing and leaves no trace in `ts`.

  A fault ends every run: no constructor passes over it.  What a whole source is read as is then a statement
  about one run from its front, which comes to a lexer that is finished or to one whose next step finds a
  fault:

      tokenize source = .ok ts    ↔ ∃ last, Reads (ofSource source) ts last ∧ last.step = .finished
      tokenize source = .error e  ↔ ∃ ts last after, Reads (ofSource source) ts last ∧ last.step = .fault e after

  These are `tokenize_eq_ok_iff` and `tokenize_eq_error_iff`.  Each direction goes through `next`, which steps
  until there is something to report, and `collect`, which asks `next` until the end: `reads_of_next_token`
  and its two siblings open the first, `reads_of_collect` and `reads_of_collect_error` the second.
-/

namespace EntitySchema

namespace Lexer

/-- The steps from the first lexer lead to the last one and report the tokens between them. -/
inductive Reads : Lexer → List Token → Lexer → Prop where
  /-- Without a step nothing is reported. -/
  | here (l : Lexer) : Reads l [] l
  /-- A step that reports `t`, before the others. -/
  | token {l next last : Lexer} {t : Token} {ts : List Token} (h : l.step = .token t next)
      (more : Reads next ts last) : Reads l (t :: ts) last
  /-- A step that reports nothing, before the others. -/
  | silent {l next last : Lexer} {ts : List Token} (h : l.step = .silent next)
      (more : Reads next ts last) : Reads l ts last

namespace Reads

/-- Runs are put together end to end. -/
theorem append {l mid last : Lexer} {ts us : List Token} (h : Reads l ts mid)
    (more : Reads mid us last) : Reads l (ts ++ us) last := by
  induction h with
  | here => exact more
  | token h _ ih => exact .token h (ih more)
  | silent h _ ih => exact .silent h (ih more)

/-- A run of one step that reports a token. -/
theorem one {l next : Lexer} {t : Token} (h : l.step = .token t next) : Reads l [t] next :=
  .token h (.here next)

/-- A run of one step that reports nothing. -/
theorem pass {l next : Lexer} (h : l.step = .silent next) : Reads l [] next :=
  .silent h (.here next)

end Reads

/-! ## What is collected along a run -/

/-- Lexers that report the same next have the same tokens: `collect` looks at a lexer through `next` only. -/
theorem collect_congr {l m : Lexer} (h : l.next = m.next) (read : Array Token) :
    l.collect read = m.collect read := by
  rw [collect]
  split
  · next t after hn => exact (collect_of_next (h ▸ hn) read).symm
  · next after hn => exact (collect_of_end (h ▸ hn) read).symm
  · next e after hn => exact (collect_of_error (h ▸ hn) read).symm

/-- A run that comes to the end is collected: what was `read` before, then `ts`, and no fault. -/
theorem collect_of_reads {l last : Lexer} {ts : List Token} (h : Reads l ts last)
    (hend : last.step = .finished) (read : Array Token) :
    l.collect read = ⟨read.toList ++ ts, none, last.position⟩ := by
  induction h generalizing read with
  | here l => simpa using collect_of_end (next_of_finished hend) read
  | token h _ ih => simp [collect_of_next (next_of_token h), ih hend]
  | silent h _ ih => rw [collect_congr (next_of_silent h), ih hend]

/-- A fault that is reached is reported, behind the tokens in front of it. -/
theorem collect_of_reads_fault {l last after : Lexer} {ts : List Token} {e : LexError}
    (h : Reads l ts last) (hfault : last.step = .fault e after) (read : Array Token) :
    l.collect read = ⟨read.toList ++ ts, some e, after.position⟩ := by
  induction h generalizing read with
  | here l => simpa using collect_of_error (next_of_fault hfault) read
  | token h _ ih => simp [collect_of_next (next_of_token h), ih hfault]
  | silent h _ ih => rw [collect_congr (next_of_silent h), ih hfault]

/-- A call that answers a token makes a run that reports this token alone. -/
theorem reads_of_next_token {l after : Lexer} {t : Token} (h : l.next = (.ok (some t), after)) :
    Reads l [t] after := by
  induction l using next.induct with
  | case1 l u next hs =>
    rw [next_of_token hs] at h
    cases h
    exact .one hs
  | case2 l next hs ih =>
    rw [next_of_silent hs] at h
    exact .silent hs (ih h)
  | case3 l e next hs =>
    rw [next_of_fault hs] at h
    cases h
  | case4 l hs =>
    rw [next_of_finished hs] at h
    cases h

/-- A call that answers the end makes a run that reports nothing, up to a lexer that is finished. -/
theorem reads_of_next_none {l after : Lexer} (h : l.next = (.ok none, after)) :
    Reads l [] after ∧ after.step = .finished := by
  induction l using next.induct with
  | case1 l u next hs =>
    rw [next_of_token hs] at h
    cases h
  | case2 l next hs ih =>
    rw [next_of_silent hs] at h
    exact ⟨.silent hs (ih h).1, (ih h).2⟩
  | case3 l e next hs =>
    rw [next_of_fault hs] at h
    cases h
  | case4 l hs =>
    rw [next_of_finished hs] at h
    cases h
    exact ⟨.here _, hs⟩

/-- A call that answers a fault makes a run that reports nothing, up to the step that finds the fault. -/
theorem reads_of_next_error {l after : Lexer} {e : LexError} (h : l.next = (.error e, after)) :
    ∃ last, Reads l [] last ∧ last.step = .fault e after := by
  induction l using next.induct with
  | case1 l u next hs =>
    rw [next_of_token hs] at h
    cases h
  | case2 l next hs ih =>
    rw [next_of_silent hs] at h
    obtain ⟨last, hr, hfault⟩ := ih h
    exact ⟨last, .silent hs hr, hfault⟩
  | case3 l e next hs =>
    rw [next_of_fault hs] at h
    cases h
    exact ⟨l, .here l, hs⟩
  | case4 l hs =>
    rw [next_of_finished hs] at h
    cases h

/-- What is collected without a fault was reported by one run to the end.  By induction on the calls, whose
runs are put together end to end. -/
theorem reads_of_collect {l : Lexer} {read : Array Token} (h : (l.collect read).error = none) :
    ∃ ts last, Reads l ts last ∧ last.step = .finished ∧
      (l.collect read).tokens = read.toList ++ ts := by
  induction l, read using collect.induct with
  | case1 l read t after hn ih =>
    rw [collect_of_next hn] at h ⊢
    obtain ⟨ts, last, hr, hend, htokens⟩ := ih h
    exact ⟨t :: ts, last, (reads_of_next_token hn).append hr, hend, by simpa using htokens⟩
  | case2 l read after hn =>
    obtain ⟨hr, hend⟩ := reads_of_next_none hn
    exact ⟨[], after, hr, hend, by simp [collect_of_end hn]⟩
  | case3 l read e after hn =>
    rw [collect_of_error hn] at h
    cases h

/-- A fault that is collected was found behind a run. -/
theorem reads_of_collect_error {l : Lexer} {read : Array Token} {e : LexError}
    (h : (l.collect read).error = some e) :
    ∃ ts last after, Reads l ts last ∧ last.step = .fault e after := by
  induction l, read using collect.induct with
  | case1 l read t after hn ih =>
    rw [collect_of_next hn] at h
    obtain ⟨ts, last, stop, hr, hfault⟩ := ih h
    exact ⟨t :: ts, last, stop, (reads_of_next_token hn).append hr, hfault⟩
  | case2 l read after hn =>
    rw [collect_of_end hn] at h
    cases h
  | case3 l read e' after hn =>
    rw [collect_of_error hn] at h
    cases h
    obtain ⟨last, hr, hfault⟩ := reads_of_next_error hn
    exact ⟨[], last, after, hr, hfault⟩

/-- A source has the tokens `ts` just when a run from its front reports them and comes to its end. -/
theorem tokenize_eq_ok_iff {source : String} {ts : List Token} :
    tokenize source = .ok ts ↔
      ∃ last, Reads (ofSource source) ts last ∧ last.step = .finished := by
  rw [tokenize_eq_ok_iff_lex, lex_eq_collect]
  constructor
  · rintro ⟨hnone, rfl⟩
    obtain ⟨us, last, hr, hend, htokens⟩ := reads_of_collect hnone
    exact ⟨last, htokens ▸ hr, hend⟩
  · rintro ⟨last, hr, hend⟩
    rw [collect_of_reads hr hend]
    exact ⟨rfl, rfl⟩

/-- A source has the fault `e` just when a run from its front comes to a step that finds it. -/
theorem tokenize_eq_error_iff {source : String} {e : LexError} :
    tokenize source = .error e ↔
      ∃ ts last after, Reads (ofSource source) ts last ∧ last.step = .fault e after := by
  rw [tokenize_eq_error_iff_lex, lex_eq_collect]
  constructor
  · exact reads_of_collect_error
  · rintro ⟨ts, last, after, hr, hfault⟩
    rw [collect_of_reads_fault hr hfault]

end Lexer

end EntitySchema
