import EntitySchema.Proofs.Edits.Regions
import EntitySchema.Proofs.Lexer.Transfer
import EntitySchema.Proofs.Meaning
import Mathlib.Logic.Relation
/-!
  Reformatting changes nothing.

  Two edits only lay a source out anew: separators put in directly behind a word, and lines of spaces put in
  directly behind a newline that is in no string.  `Reformats source source'` is one of them, at any place of
  any source.  Whatever number of them is made, the source is read as the same lexemes, comments included, so
  its hash and its protocol stay.

  1. **Up to the place of the edit** a lexer goes as it did before, since nothing in front of it was changed
     and the next character is the same (`Reads.change_rest`).

  2. **What was put in** is passed over without a word (`reads_separators`, `reads_blankLines`), and then the
     lexer stands where it stood before, with the same text to come.  This is `Rejoins l m`, and from there on
     the two go the same way (`tokenize_of_rejoins`).

  3. **That a lexer comes to the place at all** has to be shown.  For a word it follows from the places of the
     tokens: the word of a token starts where the token is placed, and different parts of a text end at
     different places (`exists_reads_of_endsAt`).  For a newline it follows from the regions: a step that
     passes over the newline inside what it takes has a string around it (`Heeds`, `Reads.exists_newline`).

  Any finite number of edits follows by induction on their chain, since each leads from a source that has
  tokens to one that has.

  Main statement: `tokenize_reformatted`.
-/

namespace EntitySchema

open SourceText

/-! ## Edits -/

/-- The word of the token ends between `front` and `back`. -/
def Token.EndsAt (t : Token) (front back : List Char) : Prop :=
  ∃ before word, front = before ++ word ∧ t.position = Position.behind before ∧
    t.lexeme.Spells word ∧ t.lexeme.Halts back

/-- Lines that consist of so many spaces each. -/
def blankLines (margins : List Nat) : List Char :=
  margins.flatMap fun margin => List.replicate margin ' ' ++ ['\n']

/-- One edit of the layout. -/
inductive Reformats (source source' : String) : Prop where
  /-- Separators directly behind a word of content. -/
  | behindWord {front run back : List Char} {ts : List Token} {t : Token}
      (hsource : source.toList = front ++ back) (hedited : source'.toList = front ++ (run ++ back))
      (hts : tokenize source = .ok ts) (ht : t ∈ ts) (hcontent : t.lexeme.isContent)
      (hplace : t.EndsAt (visible front) (withoutReturns back))
      (hrun : ∀ c ∈ run, Scan.isSeparator c)
  /-- Lines of spaces directly behind a newline outside of strings. -/
  | behindNewline {front back : List Char} {margins : List Nat}
      (hsource : source.toList = front ++ '\n' :: back)
      (hedited : source'.toList = front ++ '\n' :: (blankLines margins ++ back))
      (hplace : ∀ quote, Region.code.after front ≠ .string quote)

/-! ## Places -/

/-- Different parts of a text end at different places. -/
theorem Position.eq_of_behind_eq {a b rest rest' : List Char} (hsplit : a ++ rest = b ++ rest')
    (h : behind a = behind b) : a = b := by
  have hnil : ∀ front more : List Char, behind front = behind (front ++ more) → more = [] := by
    intro front more heq
    by_contra hne
    have hlt := compare_advanceAll (behind front) hne
    rw [advanceAll_behind, ← heq, compare_eq_lt_iff] at hlt
    omega
  rcases List.append_eq_append_iff.1 hsplit with ⟨more, rfl, -⟩ | ⟨more, rfl, -⟩
  · rw [hnil a more h, List.append_nil]
  · rw [hnil b more h.symm, List.append_nil]

namespace Lexer

variable {l m mid next last : Lexer} {t : Token} {ts us : List Token} {front back word : List Char}

/-! ## What is put in is passed over -/

/-- Separators are passed over one by one. -/
theorem reads_separators {run : List Char} (hrun : ∀ c ∈ run, Scan.isSeparator c)
    (hat : l.depth = l.target) (hrest : l.rest = run ++ back) :
    ∃ l', Reads l [] l' ∧ l'.layout = l.layout ∧ l'.rest = back := by
  induction run generalizing l with
  | nil => exact ⟨l, .here l, rfl, hrest⟩
  | cons c run ih =>
    have hstep := SilentStep.separator hat hrest (hrun c List.mem_cons_self)
    obtain ⟨l', hreads, hlayout, hrest'⟩ := ih (fun d hd => hrun d (List.mem_cons_of_mem c hd))
      (l := l.past [c] (run ++ back)) hat rfl
    exact ⟨l', .silent hstep.step_eq hreads, hlayout, hrest'⟩

/-- Lines of spaces are passed over line by line, down to the newline behind them. -/
theorem reads_blankLines {margins : List Nat} (hat : l.depth = l.target)
    (hrest : l.rest = '\n' :: (blankLines margins ++ back)) :
    ∃ l', Reads l [] l' ∧ l'.layout = l.layout ∧ l'.rest = '\n' :: back := by
  induction margins generalizing l with
  | nil => exact ⟨l, .here l, rfl, hrest⟩
  | cons margin margins ih =>
    have hstep := @SilentStep.blank l margin '\n' (blankLines margins ++ back) hat
      (by simpa [blankLines] using hrest) (Or.inl rfl)
    obtain ⟨l', hreads, hlayout, hrest'⟩ := ih
      (l := l.past ('\n' :: List.replicate margin ' ') ('\n' :: (blankLines margins ++ back))) hat rfl
    exact ⟨l', .silent hstep.step_eq hreads, hlayout, hrest'⟩

/-- The two lexers come to the same layout and the same rest, with the same lexemes on the way. -/
def Rejoins (l m : Lexer) : Prop :=
  ∃ xs ys mid mid', Reads l xs mid ∧ Reads m ys mid' ∧ ys.map (·.lexeme) = xs.map (·.lexeme) ∧
    mid'.layout = mid.layout ∧ mid'.rest = mid.rest

/-- From there on they go the same way. -/
theorem tokenize_of_rejoins {source source' : String} (h : Rejoins (ofSource source) (ofSource source'))
    (hts : tokenize source = .ok ts) :
    ∃ us, tokenize source' = .ok us ∧ us.map (·.lexeme) = ts.map (·.lexeme) := by
  obtain ⟨xs, ys, mid, mid', hfront, hfront', hlexemes, hlayout, hrest⟩ := h
  obtain ⟨last, hreads, hend⟩ := tokenize_eq_ok_iff.1 hts
  obtain ⟨more, rfl, hmore⟩ := hreads.split hend hfront
  obtain ⟨text, hpasses⟩ := hmore.exists_passes
  obtain ⟨zs, hzs, hmore'⟩ := hmore.change_rest hpasses hlayout (hrest.trans hpasses.1) (Or.inl rfl)
  have hend' := step_finished_of_layout_eq hend (layout_moved last mid' text last.rest)
    (rest_and_depth_of_finished hend).1
  refine ⟨ys ++ zs, tokenize_eq_ok_iff.2 ⟨_, hfront'.append hmore', hend'⟩, ?_⟩
  rw [List.map_append, List.map_append, hlexemes, hzs]

/-! ## Behind a word -/

/-- A step that reports a word passes just that word. -/
theorem TokenStep.passes_word (h : l.TokenStep t next) (hrest : l.rest = word ++ back)
    (hspells : t.lexeme.Spells word) (hhalts : t.lexeme.Halts back) :
    l.Passes next word ∧ next.rest = back ∧ next.depth = next.target := by
  cases h with
  | opens | closes | ends | endsLast | closesLast => cases hspells
  | @scans c cs x hat hcs hc hx =>
    obtain ⟨d, ds, rfl, hscan⟩ := Scan.ofChars_of_spells hspells hhalts
    obtain ⟨rfl, rfl⟩ : c = d ∧ cs = ds ++ back := by simpa using hcs.symm.trans hrest
    rw [hscan]
    exact ⟨⟨hrest, rfl⟩, rfl, hat⟩

/-- A lexer comes to stand before every word that it reports. -/
theorem exists_reads_of_endsAt (h : Reads l ts last) (hstart : l.position = Position.behind [])
    (hrest : l.rest = front ++ back) (ht : t ∈ ts) (hplace : t.EndsAt front back) :
    ∃ us mid next word, Reads l us mid ∧ mid.TokenStep t next ∧ mid.rest = word ++ back ∧
      t.lexeme.Spells word ∧ t.lexeme.Halts back := by
  obtain ⟨before, word, rfl, hposition, hspells, hhalts⟩ := hplace
  obtain ⟨us, mid, next, hmid, hstep⟩ := h.exists_of_mem ht
  obtain ⟨text, hpasses⟩ := hmid.exists_passes
  have hword := tokenStep_of_step hstep
  have hsplit : before ++ (word ++ back) = text ++ mid.rest := by
    rw [← hpasses.1, hrest, List.append_assoc]
  have htext : text = before := by
    refine Position.eq_of_behind_eq hsplit.symm ?_
    rw [← hposition, hword.position_eq, hpasses.position_eq hstart, List.nil_append]
  subst htext
  exact ⟨us, mid, next, word, hmid, hword, (List.append_cancel_left hsplit).symm, hspells, hhalts⟩

/-- Separators behind a word leave no trace. -/
theorem rejoins_separators {run : List Char} (h : Reads l ts last)
    (hstart : l.position = Position.behind []) (hrest : l.rest = front ++ back) (ht : t ∈ ts)
    (hcontent : t.lexeme.isContent) (hplace : t.EndsAt front back)
    (hrun : ∀ c ∈ run, Scan.isSeparator c) (hlayout : m.layout = l.layout)
    (hrest' : m.rest = front ++ (run ++ back)) : Rejoins l m := by
  obtain ⟨us, mid, next, word, hmid, hstep, hword, hspells, hhalts⟩ :=
    exists_reads_of_endsAt h hstart hrest ht hplace
  obtain ⟨hpassed, hnext, hat⟩ := hstep.passes_word hword hspells hhalts
  obtain ⟨text, hpasses⟩ := hmid.exists_passes
  -- Up to the word nothing has changed.
  have hfront : front = text ++ word := by
    have hsplit := hrest.symm.trans hpasses.1
    rw [hword, ← List.append_assoc] at hsplit
    exact List.append_cancel_right hsplit
  have halike : Alike mid.rest (word ++ (run ++ back)) := by
    obtain ⟨c, cs, rfl⟩ := List.exists_cons_of_ne_nil hspells.ne_nil
    exact Or.inl (by simp [hword])
  obtain ⟨ys, hys, hreads⟩ := hmid.change_rest hpasses hlayout
    (by rw [hrest', hfront, List.append_assoc]) halike
  -- The word is read as before, and the separators are passed over.
  have hhalts' : t.lexeme.Halts (run ++ back) := by
    cases run with
    | nil => exact hhalts
    | cons c run =>
      have hc := hrun c List.mem_cons_self
      refine Lexeme.halts_of_head hcontent fun d hd => ?_
      obtain rfl : c = d := by simpa using hd
      simp only [Scan.isSeparator, Bool.or_eq_true, decide_eq_true_eq] at hc
      rcases hc with (rfl | rfl) | rfl <;> decide
  have hstep' := hstep.change_behind (by simp [Token.isWritten, hcontent]) hpassed
    (layout_moved mid m text (word ++ (run ++ back))) rfl hhalts'
  obtain ⟨last', hlast', hlayout', hrest''⟩ := reads_separators
    (l := next.moved (mid.moved m text (word ++ (run ++ back))) word (run ++ back)) hrun hat rfl
  refine ⟨_, _, next, last', hmid.append (.one hstep.step_eq),
    (hreads.append (.one hstep'.step_eq)).append hlast', ?_, hlayout', hrest''.trans hnext.symm⟩
  simp [hys]

/-! ## Before a newline -/

/-- A newline in a word stands in a string. -/
theorem exists_string_of_spells {x : Lexeme} (h : x.Spells word) (hsplit : word = front ++ '\n' :: back) :
    ∃ quote, Region.code.after front = .string quote := by
  obtain ⟨quote, text, hquote, hfree, -, rfl⟩ := h.exists_string (Or.inl rfl) (d := '\n') (by simp [hsplit])
  have hline : quote ≠ '\n' := by rintro rfl; exact absurd hquote (by decide)
  cases front with
  | nil => exact absurd (List.cons.inj hsplit).1 hline
  | cons c front =>
    obtain ⟨rfl, hmore⟩ := List.cons.inj hsplit
    have hfront : front <+: text := by
      rcases List.prefix_concat_iff.1 ⟨_, hmore.symm⟩ with rfl | hfront
      · simp at hmore
      · exact hfront
    exact ⟨quote, (open_string_text hquote fun hm => hfree (hfront.subset hm)).1⟩

/-- Behind a comment comes the end of its line, and with it code. -/
theorem after_comment {x : Lexeme} {quote : Char} (h : x.Spells word) (hx : x.isComment)
    (hhalts : x.Halts (front ++ back)) (hstring : Region.code.after front = .string quote) :
    (Region.code.after word).after front = .string quote := by
  cases h with
  | comment hline =>
    cases front with
    | nil => cases hstring
    | cons c front =>
      obtain rfl : c = '\n' := hhalts c rfl
      rw [(comment_text hline).1]
      exact hstring
  | symbol | number | negative | string | dot | openMeta | closeMeta => cases hx

/-- What one step passes: it stands before each newline in `text` that is in no string, and a string that
starts behind `text` is seen from before it. -/
structure Heeds (l next : Lexer) (text : List Char) : Prop where
  passes : l.Passes next text
  newline {front back : List Char} (h : text = front ++ '\n' :: back) :
    (front = [] ∧ l.depth = l.target) ∨ ∃ quote, Region.code.after front = .string quote
  region {front back : List Char} {quote : Char} (h : next.rest = front ++ back)
    (hstring : Region.code.after front = .string quote) :
    Region.code.after (text ++ front) = .string quote

/-- A step that passes layout stands before each newline in it. -/
theorem Heeds.of_isLayout {text : List Char} (hpasses : l.Passes next text)
    (hlayout : ∀ c ∈ text, Scan.isLayout c)
    (hnewline : ∀ {front back}, text = front ++ '\n' :: back → front = [] ∧ l.depth = l.target) :
    l.Heeds next text where
  passes := hpasses
  newline h := Or.inl (hnewline h)
  region _ hstring := by
    rw [Region.after_append, (isCode_of_isLayout hlayout).1, hstring]

/-- A newline and its margin hold one newline, and the step stands before it. -/
theorem heeds_margin {margin : Nat} (hat : l.depth = l.target)
    (hpasses : l.Passes next ('\n' :: List.replicate margin ' ')) :
    l.Heeds next ('\n' :: List.replicate margin ' ') := by
  refine .of_isLayout hpasses isLayout_of_mem_margin fun {front back} h => ⟨?_, hat⟩
  cases front with
  | nil => rfl
  | cons c front =>
    have hmem : '\n' ∈ List.replicate margin ' ' := by
      rw [(List.cons.inj h).2]
      simp
    exact absurd (List.eq_of_mem_replicate hmem) (by decide)

/-- No newline is passed over unseen in silence. -/
theorem SilentStep.exists_heeds (h : l.SilentStep next) : ∃ text, l.Heeds next text := by
  cases h with
  | @separator c cs hat hrest hc =>
    refine ⟨[c], .of_isLayout ⟨hrest, rfl⟩ (by simp [Scan.isLayout, hc]) fun h => ?_⟩
    have hline : '\n' ∈ [c] := by simp [h]
    rw [← List.mem_singleton.1 hline] at hc
    exact absurd hc (by decide)
  | blank hat hrest => exact ⟨_, heeds_margin hat ⟨hrest, rfl⟩⟩
  | enters hat hlands => exact ⟨_, heeds_margin hat ⟨hlands.1, rfl⟩⟩

/-- Nor by a token, unless it is one of a string. -/
theorem TokenStep.exists_heeds (h : l.TokenStep t next) : ∃ text, l.Heeds next text := by
  cases h with
  | opens | closes | endsLast | closesLast =>
    exact ⟨[], .of_isLayout ⟨rfl, rfl⟩ (by simp) fun h => by simp at h⟩
  | ends hat hlands => exact ⟨_, heeds_margin hat ⟨hlands.1, rfl⟩⟩
  | @scans c cs x hat hrest hc hx =>
    obtain ⟨hspells, hhalts⟩ := Scan.spells_and_halts_of_ok hx
    refine ⟨_, ⟨hrest.trans (Scan.taken_append_rest c cs).symm, rfl⟩,
      fun h => Or.inr (exists_string_of_spells hspells h), fun {front back quote} h hstring => ?_⟩
    rw [Region.after_append]
    rcases Scan.isContent_or_isComment_of_ok hx with hcontent | hcomment
    · rw [(isCode_of_spells hcontent hspells).1, hstring]
    · rw [show (Scan.ofChars c cs).rest = front ++ back from h] at hhalts
      exact after_comment hspells hcomment hhalts hstring

/-- A lexer comes to stand before every newline that is in no string. -/
theorem Reads.exists_newline (h : Reads l ts last) (hend : last.step = .finished)
    (hrest : l.rest = front ++ '\n' :: back)
    (hplace : ∀ quote, Region.code.after front ≠ .string quote) :
    ∃ us mid, Reads l us mid ∧ mid.depth = mid.target ∧ mid.rest = '\n' :: back := by
  -- What one step passes ends before the newline, or the step stands before the newline itself.
  have hpassed : ∀ {l next : Lexer} {front text : List Char}, l.Heeds next text →
      l.rest = front ++ '\n' :: back → (∀ quote, Region.code.after front ≠ .string quote) →
        (l.depth = l.target ∧ l.rest = '\n' :: back) ∨
        ∃ more, next.rest = more ++ '\n' :: back ∧ ∀ quote, Region.code.after more ≠ .string quote := by
    intro l next front text hheeds hrest hplace
    rcases List.append_eq_append_iff.1 (hheeds.passes.1.symm.trans hrest) with
      ⟨more, rfl, hmore⟩ | ⟨more, rfl, hmore⟩
    · exact Or.inr ⟨more, hmore, fun quote hstring => hplace quote (hheeds.region hmore hstring)⟩
    · cases more with
      | nil => exact Or.inr ⟨[], hmore.symm, by simp⟩
      | cons c more =>
        obtain ⟨rfl, -⟩ := List.cons.inj hmore
        rcases hheeds.newline rfl with ⟨rfl, hat⟩ | ⟨quote, hstring⟩
        · exact Or.inl ⟨hat, hrest⟩
        · exact absurd hstring (hplace quote)
  induction h generalizing front with
  | here l =>
    rw [(rest_and_depth_of_finished hend).1] at hrest
    simp at hrest
  | @token l next last t ts hstep _ ih =>
    obtain ⟨text, hheeds⟩ := (tokenStep_of_step hstep).exists_heeds
    rcases hpassed hheeds hrest hplace with ⟨hat, hline⟩ | ⟨more, hmore, hplace'⟩
    · exact ⟨[], l, .here l, hat, hline⟩
    · obtain ⟨us, mid, hmid, hat, hline⟩ := ih hend hmore hplace'
      exact ⟨t :: us, mid, .token hstep hmid, hat, hline⟩
  | @silent l next last ts hstep _ ih =>
    obtain ⟨text, hheeds⟩ := (silentStep_of_step hstep).exists_heeds
    rcases hpassed hheeds hrest hplace with ⟨hat, hline⟩ | ⟨more, hmore, hplace'⟩
    · exact ⟨[], l, .here l, hat, hline⟩
    · obtain ⟨us, mid, hmid, hat, hline⟩ := ih hend hmore hplace'
      exact ⟨us, mid, .silent hstep hmid, hat, hline⟩

/-- Lines of spaces behind a newline leave no trace. -/
theorem rejoins_blankLines {margins : List Nat} (h : Reads l ts last) (hend : last.step = .finished)
    (hrest : l.rest = front ++ '\n' :: back)
    (hplace : ∀ quote, Region.code.after front ≠ .string quote) (hlayout : m.layout = l.layout)
    (hrest' : m.rest = front ++ '\n' :: (blankLines margins ++ back)) : Rejoins l m := by
  obtain ⟨us, mid, hmid, hat, hline⟩ := h.exists_newline hend hrest hplace
  obtain ⟨text, hpasses⟩ := hmid.exists_passes
  have hfront : front = text := by
    have hsplit := hrest.symm.trans hpasses.1
    rw [hline] at hsplit
    exact List.append_cancel_right hsplit
  obtain ⟨ys, hys, hreads⟩ := hmid.change_rest hpasses hlayout (hfront ▸ hrest')
    (Or.inl (by rw [hline]; rfl))
  obtain ⟨last', hlast', hlayout', hrest''⟩ := reads_blankLines
    (l := mid.moved m text ('\n' :: (blankLines margins ++ back))) hat rfl
  refine ⟨us, _, mid, last', hmid, hreads.append hlast', ?_, hlayout', hrest''.trans hline.symm⟩
  rw [List.append_nil, hys]

end Lexer

/-! ## Sources that are edited -/

open Lexer in
/-- An edit leads back to the way that a lexer went without it. -/
theorem Reformats.rejoins {source source' : String} {ts : List Token} (h : Reformats source source')
    (hts : tokenize source = .ok ts) : Rejoins (ofSource source) (ofSource source') := by
  obtain ⟨last, hreads, hend⟩ := tokenize_eq_ok_iff.1 hts
  have hlayout := (layout_ofSource source').trans (layout_ofSource source).symm
  cases h with
  | @behindWord front run back ts' t hsource hedited hts' ht hcontent hplace hrun =>
    cases Except.ok.inj (hts'.symm.trans hts)
    -- There is a word in front, so a byte-order mark can only stand before it.
    have hfront : front ≠ [] := by
      rintro rfl
      obtain ⟨before, word, hword, -, hspells, -⟩ := hplace
      exact hspells.ne_nil (List.append_eq_nil_iff.1 hword.symm).2
    have hrun' : withoutReturns run = run := withoutReturns_eq_self fun hm =>
      absurd (hrun _ hm) (by decide)
    refine rejoins_separators hreads rfl ?_ ht hcontent hplace hrun hlayout ?_
    · rw [rest_ofSource, hsource, visible_append hfront]
    · rw [rest_ofSource, hedited, visible_append hfront, withoutReturns_append, hrun']
  | @behindNewline front back margins hsource hedited hplace =>
    -- Neither edit puts carriage returns in.
    have hmargins : withoutReturns (blankLines margins) = blankLines margins :=
      withoutReturns_eq_self fun hm => by simp [blankLines] at hm
    have hrest := rest_ofSource source
    have hrest' := rest_ofSource source'
    rw [hsource, visible_append_newline] at hrest
    rw [hedited, visible_append_newline, withoutReturns_append, hmargins] at hrest'
    exact rejoins_blankLines hreads hend hrest
      (fun quote => Region.after_visible front ▸ hplace quote) hlayout hrest'

/-- Whatever number of edits leads from `source` to `source'`, each of them separators behind a word or lines
of spaces behind a newline, the two are read as the same lexemes, comments included: the tokens `us` of
`source'` differ from the tokens `ts` of `source` in their places only.  So the hash stays, and every `host`
reads both as the same protocol `r`, if at all. -/
theorem tokenize_reformatted {source source' : String} {ts : List Token} (hts : tokenize source = .ok ts)
    (h : Relation.ReflTransGen Reformats source source') :
    ∃ us, tokenize source' = .ok us ∧ us.map (·.lexeme) = ts.map (·.lexeme) ∧
      contentHash us = contentHash ts ∧ ∀ (host : HostTypes) (r : Protocol),
        parse host source' = .ok r ↔ parse host source = .ok r := by
  have hok : ∃ us, tokenize source' = .ok us ∧ us.map (·.lexeme) = ts.map (·.lexeme) := by
    induction h with
    | refl => exact ⟨ts, hts, rfl⟩
    | tail _ hedit ih =>
      obtain ⟨us, hus, hlexemes⟩ := ih
      obtain ⟨vs, hvs, hlexemes'⟩ := Lexer.tokenize_of_rejoins (hedit.rejoins hus) hus
      exact ⟨vs, hvs, hlexemes'.trans hlexemes⟩
  obtain ⟨us, hus, hlexemes⟩ := hok
  have hmeaning : Token.meaning us = Token.meaning ts := by
    rw [Token.meaning_eq_withoutComments, Token.meaning_eq_withoutComments, hlexemes]
  exact ⟨us, hus, hlexemes, contentHash_eq_and_parse_eq_ok_iff hts hus hmeaning⟩

/-- A blank, a comma and a tab behind a name, and two lines behind the newline that follows. -/
theorem tokenize_reformatted_event :
    Relation.ReflTransGen Reformats "event E\n  x int\n" "event E ,\t\n   \n\n  x int\n" ∧
      ∃ ts us, tokenize "event E\n  x int\n" = .ok ts ∧
        tokenize "event E ,\t\n   \n\n  x int\n" = .ok us ∧
        us.map (·.lexeme) = [.symbol "event", .symbol "E", .openScope, .symbol "x", .symbol "int",
          .endLine, .closeScope] ∧
        contentHash us = contentHash ts ∧
        ∃ r, parse HostTypes.empty "event E\n  x int\n" = .ok r ∧
          parse HostTypes.empty "event E ,\t\n   \n\n  x int\n" = .ok r := by
  have hts : tokenize "event E\n  x int\n" = .ok (lex "event E\n  x int\n").tokens := by
    decide +kernel
  have hword : Reformats "event E\n  x int\n" "event E ,\t\n  x int\n" :=
    @Reformats.behindWord _ _ "event E".toList " ,\t".toList "\n  x int\n".toList _
      ⟨.symbol "E", ⟨1, 7⟩⟩ (by decide +kernel) (by decide +kernel) hts (by decide +kernel) rfl
      ⟨"event ".toList, ['E'], by decide +kernel, by decide +kernel, .symbol (by decide) (by simp),
        by intro c hc; cases hc; decide⟩ (List.all_eq_true.1 (by decide +kernel))
  have hcode : Region.code.after "event E ,\t".toList = .code := by decide +kernel
  have hlines : Reformats "event E ,\t\n  x int\n" "event E ,\t\n   \n\n  x int\n" :=
    @Reformats.behindNewline _ _ "event E ,\t".toList "  x int\n".toList [3, 0] (by decide +kernel)
      (by decide +kernel) fun quote => by rw [hcode]; simp
  have hedits := Relation.ReflTransGen.tail (.single hword) hlines
  obtain ⟨us, hus, hlexemes, hhash, hparse⟩ := tokenize_reformatted hts hedits
  obtain ⟨r, hr⟩ := exists_ok_of_isSome
    (show (parse HostTypes.empty "event E\n  x int\n").toOption.isSome by decide +kernel)
  exact ⟨hedits, _, us, hts, hus, hlexemes.trans (by decide +kernel), hhash, r, hr,
    (hparse _ r).2 hr⟩

end EntitySchema
