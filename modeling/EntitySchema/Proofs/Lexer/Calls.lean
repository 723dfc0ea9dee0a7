import EntitySchema.Lexer.Source
import EntitySchema.Proofs.Canonical.Orderly
/-!
  A lexer that is asked again and again.

  Reading can go on after a fault, and a lexer at its end can be asked once more.  What such calls report is
  no longer the token list of a source, but it keeps its discipline (`Lexeme.Disciplined`): no more scopes
  close than have opened, a line ends right behind its content, and no scope closes right behind content.

  The invariant is `Consistent l xs`, which ties the three things that a lexer `l` knows of the layout to the
  lexemes `xs` that it has reported so far.  With #x for the number of times `x` is among them and `last` for
  the last of them that is no comment,

      depth + #closeScope = #openScope
      ended = false  ↔  last is content
      ended = false  →  depth ≤ target

  1. **One step.**  `Consistent.tokenStep` and `Consistent.silentStep` go through the steps as they are
     listed.  The third clause is what a mark needs: where `target < depth` a scope closes, so no line is open
     there and the last lexeme is no content.  A fault leaves the layout alone (`layout_of_fault`).

  2. **One call.**  `Consistent.next` is the induction along the silent steps of a call.  That a call with a
     fault leaves the layout alone as well needs an argument (`layout_of_next_error`): had a silent step moved
     `target`, the next step would have reported a mark and not the fault.

  3. **All calls.**  `consistent_afterCalls` is the induction on their number `n`.  The calls are those of a
     lexer on its source, and each is a call of the lexer on the text that is left (`next_onText`).  Every
     call but one that answers the end does at least one unit of `work`, so after as many calls as there is
     work the end is answered (`exists_answer_none`).

  Main statement: `calls_disciplined`.
-/

namespace EntitySchema

/-! ## Disciplined reports -/

/-- The lexemes that are no comments, in their order. -/
def Lexeme.withoutComments (xs : List Lexeme) : List Lexeme := xs.filter fun x => !x.isComment

/-- What a layout allows to be reported.  Comments may stand anywhere. -/
structure Lexeme.Disciplined (xs : List Lexeme) : Prop where
  /-- No more scopes close than have opened. -/
  closes_le : ∀ front, front <+: xs → front.count .closeScope ≤ front.count .openScope
  /-- A line ends right behind content. -/
  endLine_behind : ∀ front back, withoutComments xs = front ++ .endLine :: back →
    ∃ x ∈ front.getLast?, x.isContent
  /-- No scope closes right behind content. -/
  closeScope_behind : ∀ front back, withoutComments xs = front ++ .closeScope :: back →
    ∀ x ∈ front.getLast?, ¬ x.isContent

namespace Lexeme

variable {xs : List Lexeme} {x : Lexeme}

/-- A comment behind lexemes is dropped, and anything else stays behind them. -/
theorem withoutComments_concat (xs : List Lexeme) (x : Lexeme) : withoutComments (xs ++ [x]) =
    withoutComments xs ++ if x.isComment then [] else [x] := by
  rw [withoutComments, List.filter_append]
  cases h : x.isComment <;> simp [withoutComments, h]

/-- Where nothing was reported there is nothing to keep. -/
theorem disciplined_nil : Disciplined [] where
  closes_le front h := by simp [List.prefix_nil.1 h]
  endLine_behind front back h := by simp [withoutComments] at h
  closeScope_behind front back h := by simp [withoutComments] at h

/-- A lexeme that is put behind others stands behind all of them or is among them. -/
theorem eq_append_concat {ys front back : List Lexeme} {y : Lexeme}
    (h : ys ++ [x] = front ++ y :: back) :
    (ys = front ∧ x = y) ∨ ∃ more, ys = front ++ y :: more := by
  rcases List.eq_nil_or_concat back with rfl | ⟨more, last, rfl⟩
  · obtain ⟨hys, hx⟩ := List.append_inj' h rfl
    exact Or.inl ⟨hys, List.singleton_inj.1 hx⟩
  · rw [List.concat_eq_append, ← List.cons_append, ← List.append_assoc] at h
    exact Or.inr ⟨more, (List.append_inj' h rfl).1⟩

/-- Discipline is a matter of the last lexeme, over and over.  With `x` behind disciplined lexemes only three
things are to be shown: the count of all of them, what stands before `x` if it ends a line, and what stands
before it if it closes a scope. -/
theorem Disciplined.concat (h : Disciplined xs)
    (hcount : (xs ++ [x]).count .closeScope ≤ (xs ++ [x]).count .openScope)
    (hends : x = .endLine → ∃ y ∈ (withoutComments xs).getLast?, y.isContent)
    (hcloses : x = .closeScope → ∀ y ∈ (withoutComments xs).getLast?, ¬ y.isContent) :
    Disciplined (xs ++ [x]) where
  closes_le front hfront := by
    rcases List.prefix_concat_iff.1 hfront with rfl | hfront
    · exact hcount
    · exact h.closes_le front hfront
  -- A mark that stands further in front was there before, and comments are not looked at.
  endLine_behind front back heq := by
    rw [withoutComments_concat] at heq
    cases hx : x.isComment with
    | true =>
      rw [hx, if_pos rfl, List.append_nil] at heq
      exact h.endLine_behind front back heq
    | false =>
      rw [hx, if_neg Bool.false_ne_true] at heq
      rcases eq_append_concat heq with ⟨rfl, rfl⟩ | ⟨more, hmore⟩
      · exact hends rfl
      · exact h.endLine_behind front more hmore
  closeScope_behind front back heq := by
    rw [withoutComments_concat] at heq
    cases hx : x.isComment with
    | true =>
      rw [hx, if_pos rfl, List.append_nil] at heq
      exact h.closeScope_behind front back heq
    | false =>
      rw [hx, if_neg Bool.false_ne_true] at heq
      rcases eq_append_concat heq with ⟨rfl, rfl⟩ | ⟨more, hmore⟩
      · exact hcloses rfl
      · exact h.closeScope_behind front more hmore

end Lexeme

namespace Lexer

/-! ## Faults and the layout -/

/-- What a lexer knows of the layout: the scopes that are open, the level of the line that is read, and
whether the line before it has ended. -/
def layout (l : Lexer) : Nat × Nat × Bool := (l.depth, l.target, l.ended)

/-- A fault leaves the layout alone. -/
theorem layout_of_fault {l after : Lexer} {e : LexError} (h : l.step = .fault e after) :
    after.layout = l.layout := by
  cases faultStep_of_step h with
  | tab | odd | deep | scans => rfl

/-- A lexer that is not at rest reports a mark: a scope opens where `depth < target` and closes where `target
< depth`. -/
theorem exists_token_of_depth_ne {l : Lexer} (h : l.depth ≠ l.target) :
    ∃ t next, l.step = .token t next := by
  rcases Nat.lt_or_gt_of_ne h with hlt | hlt
  · exact ⟨_, _, (TokenStep.opens hlt).step_eq⟩
  · exact ⟨_, _, (TokenStep.closes hlt).step_eq⟩

/-- What is passed over leaves the layout alone, unless a mark comes next. -/
theorem SilentStep.layout_eq {l next : Lexer} (h : l.SilentStep next)
    (hrest : next.depth = next.target) : next.layout = l.layout := by
  cases h with
  | separator | blank => rfl
  | enters hat hlands hopen =>
    have hlevel : l.depth = _ := hrest
    exact congrArg (fun target => (l.depth, target, l.ended)) (hlevel.symm.trans hat)

/-- A call that reports a fault leaves the layout alone, whatever it passed over before. -/
theorem layout_of_next_error {l : Lexer} {e : LexError} (h : l.next.1 = .error e) :
    l.next.2.layout = l.layout := by
  induction l using next.induct with
  | case1 l t after hs =>
    rw [next_of_token hs] at h
    cases h
  | case2 l mid hs ih =>
    rw [next_of_silent hs] at h ⊢
    -- Had the layout changed, the call would have reported the mark instead.
    have hrest : mid.depth = mid.target := by
      by_contra hne
      obtain ⟨t, after, ht⟩ := exists_token_of_depth_ne hne
      rw [next_of_token ht] at h
      cases h
    exact (ih h).trans ((silentStep_of_step hs).layout_eq hrest)
  | case3 l e after hs =>
    rw [next_of_fault hs]
    exact layout_of_fault hs
  | case4 l hs =>
    rw [next_of_finished hs] at h
    cases h

/-! ## What was reported and what is known -/

/-- The lexer knows the scopes that are open in what it has reported, and whether a line is. -/
structure Consistent (l : Lexer) (xs : List Lexeme) : Prop where
  /-- The scopes that are open are those that have opened and not closed. -/
  depth_eq : l.depth + xs.count .closeScope = xs.count .openScope
  /-- A line is open behind content, comments being passed over. -/
  open_iff : l.ended = false ↔ ∃ x ∈ (Lexeme.withoutComments xs).getLast?, x.isContent
  /-- An open line ends before anything closes. -/
  depth_le : l.ended = false → l.depth ≤ l.target
  disciplined : Lexeme.Disciplined xs

/-- At the start nothing was reported, no scope is open and no line is. -/
theorem consistent_ofSource (source : String) : (ofSource source).Consistent [] :=
  ⟨rfl, by simp [ofSource, ofText, Lexeme.withoutComments], by simp [ofSource, ofText],
    Lexeme.disciplined_nil⟩

namespace Consistent

variable {l after : Lexer} {xs : List Lexeme}

/-- Consistency looks at the layout only. -/
theorem of_layout_eq (h : l.Consistent xs) (hlayout : after.layout = l.layout) :
    after.Consistent xs := by
  simp only [layout, Prod.mk.injEq] at hlayout
  obtain ⟨hdepth, htarget, hended⟩ := hlayout
  exact ⟨hdepth ▸ h.depth_eq, hended ▸ h.open_iff, by rw [hdepth, htarget, hended]; exact h.depth_le,
    h.disciplined⟩

/-- What is passed over keeps a lexer consistent; `target` moves down only where no line is open. -/
theorem silentStep (h : l.Consistent xs) (hs : l.SilentStep after) : after.Consistent xs := by
  cases hs with
  | separator | blank => exact h.of_layout_eq rfl
  | enters hat hlands hopen =>
    refine ⟨h.depth_eq, h.open_iff, fun hended => ?_, h.disciplined⟩
    rcases hopen with hdeeper | hclosed
    · exact Nat.le_of_lt hdeeper
    · cases hclosed.symm.trans hended

/-- Where no line is open the last lexeme that is no comment is no content. -/
theorem not_isContent (h : l.Consistent xs) (hended : l.ended = true) :
    ∀ x ∈ (Lexeme.withoutComments xs).getLast?, ¬ x.isContent := by
  intro x hx hcontent
  cases hended.symm.trans (h.open_iff.2 ⟨x, hx, hcontent⟩)

/-- A scope closes where no line is open. -/
theorem concat_closeScope (h : l.Consistent xs) (hpos : 0 < l.depth) (hended : l.ended = true)
    (hdepth : after.depth = l.depth - 1) (hended' : after.ended = l.ended) :
    after.Consistent (xs ++ [.closeScope]) := by
  have hcount := h.depth_eq
  refine ⟨?_, by simp [hended', hended, Lexeme.withoutComments_concat, Lexeme.isComment,
    Lexeme.isContent], by simp [hended', hended], h.disciplined.concat ?_ (by simp) fun _ =>
      h.not_isContent hended⟩
  · simp only [List.count_append, List.count_singleton_self, List.count_singleton, hdepth]
    simp
    omega
  · simp only [List.count_append, List.count_singleton_self, List.count_singleton]
    simp
    omega

/-- A line ends where one is open. -/
theorem concat_endLine (h : l.Consistent xs) (hopen : l.ended = false)
    (hdepth : after.depth = l.depth) (hended' : after.ended = true) :
    after.Consistent (xs ++ [.endLine]) := by
  have hcount := h.depth_eq
  refine ⟨by simpa [hdepth] using hcount, by simp [hended', Lexeme.withoutComments_concat,
    Lexeme.isComment, Lexeme.isContent], by simp [hended'], h.disciplined.concat ?_ (fun _ =>
      h.open_iff.1 hopen) (by simp)⟩
  simp only [List.count_append, List.count_singleton]
  simp
  omega

/-- A step that reports a token keeps a lexer consistent with what is reported.  Marks are dealt with one by
one; content and comments change no count, and content opens the line. -/
theorem tokenStep {t : Token} (h : l.Consistent xs) (hs : l.TokenStep t after) :
    after.Consistent (xs ++ [t.lexeme]) := by
  have hcount := h.depth_eq
  cases hs with
  | opens hlt =>
    refine ⟨?_, by simp [Lexeme.withoutComments_concat, Lexeme.isComment, Lexeme.isContent], by simp,
      h.disciplined.concat ?_ (by simp) (by simp)⟩
    · simp
      omega
    · simp
      omega
  | closes hlt =>
    refine h.concat_closeScope (by omega) ?_ rfl rfl
    -- Where a line is open nothing closes.
    cases hended : l.ended with
    | true => rfl
    | false => exact absurd (h.depth_le hended) (Nat.not_le_of_gt hlt)
  | ends _ _ _ hopen => exact h.concat_endLine hopen rfl rfl
  | endsLast _ _ _ hopen => exact h.concat_endLine hopen rfl rfl
  | closesLast _ _ hdepth hended =>
    exact h.concat_closeScope (Nat.pos_of_ne_zero hdepth) hended rfl rfl
  | @scans c cs x hat hrest hc hx =>
    -- A scan finds no mark, so no count changes.
    have hmark : x ≠ .openScope ∧ x ≠ .closeScope ∧ x ≠ .endLine := by
      refine ⟨?_, ?_, ?_⟩ <;> rintro rfl <;>
        rcases Scan.isContent_or_isComment_of_ok hx with hs | hs <;> cases hs
    have hsame : ∀ mark, x ≠ mark → (xs ++ [x]).count mark = xs.count mark := fun mark hne => by
      simp [hne]
    refine ⟨?_, ?_, fun _ => Nat.le_of_eq hat, h.disciplined.concat ?_ (fun hends => absurd hends
      hmark.2.2) fun hcloses => absurd hcloses hmark.2.1⟩
    · rw [hsame _ hmark.1, hsame _ hmark.2.1]
      exact hcount
    · rw [Lexeme.withoutComments_concat]
      cases hcomment : x.isComment with
      | true => simpa [hcomment] using h.open_iff
      | false =>
        have hcontent : x.isContent := by
          simpa [hcomment] using Scan.isContent_or_isComment_of_ok hx
        simp [hcontent]
    · rw [hsame _ hmark.1, hsame _ hmark.2.1]
      omega

/-- A call keeps a lexer consistent with what is reported, a fault and the end being no lexemes. -/
theorem next (h : l.Consistent xs) :
    l.next.2.Consistent (xs ++ (l.next.1.toOption.join.map (·.lexeme)).toList) := by
  induction l using next.induct with
  | case1 l t after hs =>
    rw [next_of_token hs]
    exact h.tokenStep (tokenStep_of_step hs)
  | case2 l mid hs ih =>
    rw [next_of_silent hs]
    exact ih (h.silentStep (silentStep_of_step hs))
  | case3 l e after hs =>
    rw [next_of_fault hs]
    simpa [Except.toOption] using h.of_layout_eq (layout_of_fault hs)
  | case4 l hs =>
    rw [next_of_finished hs]
    simpa [Except.toOption] using h

end Consistent

end Lexer

/-! ## Calls one after the other -/

namespace SourceLexer

/-- The lexer after the first `n` calls. -/
def afterCalls (s : SourceLexer) : Nat → SourceLexer
  | 0 => s
  | n + 1 => (s.afterCalls n).next.2

/-- What call `n` answers, the calls being counted from zero: a token, a fault, or `none` at the end. -/
def answer (s : SourceLexer) (n : Nat) : Except LexError (Option Token) := (s.afterCalls n).next.1

/-- The lexemes that the first `n` calls report; a fault and the end report none. -/
def reported (s : SourceLexer) (n : Nat) : List Lexeme :=
  (s.follow n).filterMap fun call => call.1.toOption.join.map (·.lexeme)

/-- What a lexer knows of the layout: the scopes that are open, the level of the line that is read, and
whether a line is open. -/
def layout (s : SourceLexer) : Nat × Nat × Bool := (s.depth, s.target, s.ended)

variable {s : SourceLexer} {n : Nat}

/-- A call on a source is a call on its text; `next_onText` once for what is left. -/
theorem next_of_onText (s : SourceLexer) : s.next.2.onText = s.onText.next.2 := by
  rw [next_onText]

/-- To ask `n` times behind the first call is to ask `n + 1` times. -/
theorem afterCalls_next (s : SourceLexer) (n : Nat) : s.next.2.afterCalls n = s.afterCalls (n + 1) := by
  induction n with
  | zero => rfl
  | succ n ih => exact congrArg (fun mid => mid.next.2) ih

/-- Call `n` behind the first call is call `n + 1`. -/
theorem answer_next (s : SourceLexer) (n : Nat) : s.next.2.answer n = s.answer (n + 1) := by
  rw [answer, afterCalls_next, answer]

/-- The last of `n + 1` calls that are followed is call `n`, with the place behind it. -/
theorem follow_succ (s : SourceLexer) (n : Nat) :
    s.follow (n + 1) = s.follow n ++ [(s.answer n, (s.afterCalls (n + 1)).reader.position)] := by
  induction n generalizing s with
  | zero => rfl
  | succ n ih =>
    have hfirst : ∀ k, s.follow (k + 1) = (s.next.1, s.next.2.reader.position) :: s.next.2.follow k :=
      fun _ => rfl
    rw [hfirst (n + 1), ih, hfirst n, answer_next, afterCalls_next, List.cons_append]

/-- Call `n` adds its lexeme to what is reported, if it answers one. -/
theorem reported_succ (s : SourceLexer) (n : Nat) :
    s.reported (n + 1) = s.reported n ++ ((s.answer n).toOption.join.map (·.lexeme)).toList := by
  rw [reported, follow_succ, List.filterMap_append]
  cases h : (s.answer n).toOption.join.map (·.lexeme) <;> simp [reported, h]

/-- After any number of calls a lexer is consistent with what was reported: by induction on the calls, each
of them a call of the lexer on the text. -/
theorem consistent_afterCalls (source : String) (n : Nat) :
    ((ofSource source).afterCalls n).onText.Consistent ((ofSource source).reported n) := by
  induction n with
  | zero =>
    show (ofSource source).onText.Consistent []
    rw [onText_ofSource]
    exact Lexer.consistent_ofSource source
  | succ n ih =>
    -- The call on the source is the call on its text.
    have hnext := ih.next
    rw [next_onText] at hnext
    rw [reported_succ]
    exact hnext

/-- Once the end was answered the lexer stays where it is, at a step that is finished. -/
theorem step_of_answer_none (h : s.answer n = .ok none) {m : Nat} (hm : n ≤ m) :
    (s.afterCalls (m + 1)).onText.step = .finished := by
  induction m, hm using Nat.le_induction with
  | base =>
    have hnext : (s.afterCalls n).onText.next.1 = .ok none := by
      rw [next_onText]
      exact h
    have hstep := (Lexer.reads_of_next_none (Prod.ext hnext rfl)).2
    rwa [next_onText] at hstep
  | succ m _ ih =>
    rw [afterCalls, next_of_onText, Lexer.next_of_finished ih]
    exact ih

/-- The end is answered by every call behind it. -/
theorem answer_of_answer_none (h : s.answer n = .ok none) {m : Nat} (hm : n ≤ m) :
    s.answer m = .ok none := by
  rcases Nat.eq_or_lt_of_le hm with rfl | hlt
  · exact h
  · obtain ⟨k, rfl⟩ : ∃ k, m = k + 1 := ⟨m - 1, by omega⟩
    have hnext := Lexer.next_of_finished (step_of_answer_none h (show n ≤ k by omega))
    rw [next_onText] at hnext
    exact congrArg Prod.fst hnext

/-- The end is answered once all work is done, if not before.  By strong induction on the work that is left.
-/
theorem exists_answer_none (s : SourceLexer) : ∃ n, n ≤ s.onText.work ∧ s.answer n = .ok none := by
  induction hw : s.onText.work using Nat.strongRecOn generalizing s with
  | ind w ih =>
    by_cases hnone : s.next.1 = .ok none
    · exact ⟨0, Nat.zero_le _, hnone⟩
    · have hless : s.next.2.onText.work < s.onText.work := by
        rw [next_of_onText]
        exact Lexer.next_work_lt (by rwa [next_onText])
      -- The rest needs one call less than all of it.
      obtain ⟨n, hn, hend⟩ := ih s.next.2.onText.work (hw ▸ hless) s.next.2 rfl
      exact ⟨n + 1, by omega, answer_next s n ▸ hend⟩

/-- There are two units of work for every visible character of a source, and nothing else at its start. -/
theorem work_ofSource_le (source : String) : (ofSource source).onText.work ≤ 2 * source.length := by
  have hvisible : (SourceText.visible source.toList).length ≤ source.toList.length := by
    refine (List.length_filter_le _ _).trans ?_
    cases source.toList with
    | nil => exact Nat.le_refl _
    | cons c cs =>
      rw [SourceText.dropMark]
      split
      · exact Nat.le_succ _
      · exact Nat.le_refl _
  rw [String.length_toList] at hvisible
  rw [onText_ofSource]
  simp only [Lexer.work, Lexer.ofSource, Lexer.ofText, Bool.not_true, Bool.toNat_false]
  omega

/-- However often a lexer on `source` is asked, and whatever it finds, (a) what it reports is disciplined; (b)
at the end all scopes that opened have closed, and it stays the end; (c) a fault leaves the layout alone, so
the calls behind it go on where it was; (d) the end comes within two calls for each character and two more. -/
theorem calls_disciplined (source : String) :
    (∀ n, Lexeme.Disciplined ((ofSource source).reported n)) ∧
    (∀ n, (ofSource source).answer n = .ok none →
      ((ofSource source).reported n).count .openScope =
          ((ofSource source).reported n).count .closeScope ∧
        ∀ m, n ≤ m → (ofSource source).answer m = .ok none) ∧
    (∀ n e, (ofSource source).answer n = .error e →
      ((ofSource source).afterCalls (n + 1)).layout = ((ofSource source).afterCalls n).layout) ∧
    ∃ n, n + 1 ≤ 2 * source.length + 2 ∧ (ofSource source).answer n = .ok none := by
  refine ⟨fun n => (consistent_afterCalls source n).disciplined, fun n h => ⟨?_, fun m hm =>
    answer_of_answer_none h hm⟩, fun n e h => ?_, ?_⟩
  -- At the end no scope is open, so as many have closed as have opened.
  · have hdepth := (Lexer.rest_and_depth_of_finished (step_of_answer_none h (Nat.le_refl n))).2
    have hcount := (consistent_afterCalls source (n + 1)).depth_eq
    rw [reported_succ, h, hdepth] at hcount
    simpa [Except.toOption] using hcount.symm
  · have hnext : ((ofSource source).afterCalls n).onText.next.1 = .error e := by
      rw [next_onText]
      exact h
    have hlayout := Lexer.layout_of_next_error hnext
    rw [next_onText] at hlayout
    exact hlayout
  · obtain ⟨n, hn, hend⟩ := exists_answer_none (ofSource source)
    have := work_ofSource_le source
    exact ⟨n, by omega, hend⟩

/-- A line with an odd margin is a fault; its content is read as more of the line before. -/
theorem calls_disciplined_oddIndent :
    (ofSource "a\r\n   b\n  c").answer 1 = .error ⟨.oddIndent 3, ⟨2, 1⟩⟩ ∧
    ((ofSource "a\r\n   b\n  c").afterCalls 2).layout = ((ofSource "a\r\n   b\n  c").afterCalls 1).layout ∧
    (ofSource "a\r\n   b\n  c").reported 7 =
      [.symbol "a", .symbol "b", .openScope, .symbol "c", .endLine, .closeScope] ∧
    Lexeme.Disciplined ((ofSource "a\r\n   b\n  c").reported 7) ∧
    (ofSource "a\r\n   b\n  c").answer 7 = .ok none ∧
    (ofSource "a\r\n   b\n  c").answer 20 = .ok none := by
  obtain ⟨hdisciplined, hends, hfault, -⟩ := calls_disciplined "a\r\n   b\n  c"
  have h1 : (ofSource "a\r\n   b\n  c").answer 1 = .error ⟨.oddIndent 3, ⟨2, 1⟩⟩ := by decide +kernel
  have h7 : (ofSource "a\r\n   b\n  c").answer 7 = .ok none := by decide +kernel
  exact ⟨h1, hfault 1 _ h1, by decide +kernel, hdisciplined 7, h7, (hends 7 h7).2 20 (by decide)⟩

end SourceLexer

end EntitySchema
