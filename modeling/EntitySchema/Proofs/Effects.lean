import EntitySchema.Proofs.Streaming
/-!
  What a run of the validator leaves behind.

  A run reads one file and writes at most one.  Between the two it parses and prints, and it can stop at any
  of these. `Ends o s` lists the five ways in which a run with options `o` can end that starts from files `s`,
  each with what was found on the way, what was printed and what the files are afterwards; there is no other
  (`ends_runOn`).  In particular the canonical form never fails for want of tokens.

  Nothing is said of the files but that they are read and written whole.  `FileStore.Atomic place? file?`
  describes a store by two functions, the place that a path leads to and the bytes at a place:
  * a read changes nothing, and what it hands out is `(place? s path).bind (file? s)`;
  * a write that succeeds replaces all of the file at the place of the path and no other;
  * a write that fails, for whatever reason, replaces nothing at all.

  Which writes fail is left open, so the theorem holds for a full disk as well as for a folder that is not
  there.  Files in memory are such a store (`Directory.atomic`).

  Main statement: `runOn_changes_only_output`.
-/

namespace EntitySchema

/-! ## Files that are written whole -/

namespace FileStore

variable {σ : Type} [FileStore (StateM σ)]

/-- Reads change nothing, and writes replace the file that the path leads to or change nothing.  Which
writes fail, and why, is open. -/
structure Atomic (place? : σ → String → Option Place) (file? : σ → Place → Option ByteArray) : Prop where
  read_keeps : ∀ (s : σ) path, (readIn s path).2 = s
  read_ok : ∀ (s : σ) path bytes, (readIn s path).1 = .ok bytes →
    (place? s path).bind (file? s) = some bytes
  write_error : ∀ (s after : σ) path bytes e, writeIn s path bytes = (.error e, after) → after = s
  write_ok : ∀ (s after : σ) path bytes, writeIn s path bytes = (.ok (), after) → ∃ place,
    place? s path = some place ∧ place? after path = some place ∧
      ∀ other, file? after other = if other = place then some bytes else file? s other

end FileStore

open FileStore

/-- Files in memory are written whole.  The place of a path does not move when a file is written under it,
since a write makes folders and takes none away. -/
theorem Directory.atomic : Atomic Directory.place? Directory.file? where
  read_keeps d path := rfl
  read_ok d path bytes hread := by
    obtain ⟨p, hp, hat⟩ := read_eq_ok_iff.1 (show d.read path = .ok bytes from hread)
    obtain ⟨place, hplace, -, -, hfile, -⟩ := readAt_eq_ok_iff.1 hat
    rw [place?_eq_some_iff.2 ⟨p, hp, hplace⟩, Option.bind_some, hfile]
  write_error d after path bytes e hwrite := by
    rw [writeIn_eq] at hwrite
    cases hd : d.write path bytes with
    | ok d' =>
      rw [hd] at hwrite
      cases hwrite
    | error =>
      rw [hd] at hwrite
      cases hwrite
      rfl
  write_ok d after path bytes hwrite := by
    rw [writeIn_eq] at hwrite
    cases hd : d.write path bytes with
    | error e =>
      rw [hd] at hwrite
      cases hwrite
    | ok d' =>
      rw [hd] at hwrite
      cases hwrite
      obtain ⟨p, hp, hat⟩ := write_eq_ok_iff.1 hd
      obtain ⟨place, hplace, -, -, -, rfl⟩ := writeAt_eq_ok_iff.1 hat
      exact ⟨place, place?_eq_some_iff.2 ⟨p, hp, hplace⟩,
        place?_eq_some_iff.2 ⟨p, hp, locate_put hplace place bytes⟩, file?_put d place bytes⟩

/-! ## How a run ends -/

namespace Validation

variable {σ : Type} [FileStore (StateM σ)] {o : Options} {s : σ}

/-- The five ends of a run. -/
inductive Ends (o : Options) (s : σ) : ValidationRun × σ → Prop where
  | unreadable {e : FileError} (hread : textOf (readIn s o.protocol).1 = .error e) :
    Ends o s (⟨.error (.unreadable o.protocol e), ""⟩, s)
  | invalid {text : String} {e : SourceError} (hread : textOf (readIn s o.protocol).1 = .ok text)
    (hparse : parse o.hostTypes text = .error e) :
    Ends o s (⟨.error (.invalid e), ""⟩, s)
  | shown {text : String} {r : Protocol} (hread : textOf (readIn s o.protocol).1 = .ok text)
    (hparse : parse o.hostTypes text = .ok r) (ho : o.beautify = false) :
    Ends o s (⟨.ok r, output o r⟩, s)
  | unwritable {text : String} {r : Protocol} {ts : List Token} {e : FileError}
    (hread : textOf (readIn s o.protocol).1 = .ok text) (hparse : parse o.hostTypes text = .ok r)
    (ho : o.beautify = true) (hts : tokenize text = .ok ts)
    (hwrite : writeIn s o.outputPath (canonicalText Flags.normal ts).toUTF8 = (.error e, s)) :
    Ends o s (⟨.error (.unwritable o.outputPath e), output o r⟩, s)
  | written {text : String} {r : Protocol} {ts : List Token} {after : σ}
    (hread : textOf (readIn s o.protocol).1 = .ok text) (hparse : parse o.hostTypes text = .ok r)
    (ho : o.beautify = true) (hts : tokenize text = .ok ts)
    (hwrite : writeIn s o.outputPath (canonicalText Flags.normal ts).toUTF8 = (.ok (), after)) :
    Ends o s (⟨.ok r, output o r⟩, after)

/-- There is no other end: the branches of a run, followed one by one. -/
theorem ends_runOn {place? : σ → String → Option Place} {file? : σ → Place → Option ByteArray}
    (hstore : Atomic place? file?) (o : Options) (s : σ) : Ends o s (runOn o s) := by
  rw [runOn_eq (hstore.read_keeps s o.protocol)]
  cases hread : textOf (readIn s o.protocol).1 with
  | error e => exact .unreadable hread
  | ok text =>
    simp only
    cases hparse : parse o.hostTypes text with
    | error e => exact .invalid hread hparse
    | ok r =>
      cases ho : o.beautify with
      | false => exact .shown hread hparse ho
      | true =>
        -- What was parsed has tokens, so there is a canonical form to be written.
        obtain ⟨ts, hts, -⟩ := exists_tokens_of_parse hparse
        simp only [if_true, hts]
        rcases hwrite : writeIn s o.outputPath (canonicalText Flags.normal ts).toUTF8 with
          ⟨e | _, after⟩
        · cases hstore.write_error _ _ _ _ _ hwrite
          exact .unwritable hread hparse ho hts hwrite
        · exact .written hread hparse ho hts hwrite

/-- The text that a run parses is that of the file that the path of the description leads to. -/
theorem exists_bytes_of_textOf {place? : σ → String → Option Place}
    {file? : σ → Place → Option ByteArray} (hstore : Atomic place? file?) {path text : String}
    (hread : textOf (readIn s path).1 = .ok text) :
    ∃ bytes, (place? s path).bind (file? s) = some bytes ∧ String.fromUTF8? bytes = some text := by
  obtain ⟨bytes, hok⟩ := exists_read_of_textOf hread
  rw [hok, textOf] at hread
  refine ⟨bytes, hstore.read_ok _ _ _ hok, ?_⟩
  split at hread
  · next htext => rw [htext, Except.ok.inj hread]
  · cases hread

/-- A failed run changes no file, and prints nothing before the protocol is there. -/
theorem Ends.of_error {after : ValidationRun × σ} {e : ValidationError} (h : Ends o s after)
    (he : after.1.result = .error e) : after.2 = s ∧ (∀ fault, e ≠ .unformattable fault) ∧
      ((∃ path fault, e = .unreadable path fault) ∨ (∃ fault, e = .invalid fault) →
        after.1.out = "") := by
  cases h with
  | unreadable =>
    cases he
    exact ⟨rfl, nofun, fun _ => rfl⟩
  | invalid =>
    cases he
    exact ⟨rfl, nofun, fun _ => rfl⟩
  | unwritable =>
    cases he
    exact ⟨rfl, nofun, by simp⟩
  | shown | written => cases he

/-- A run that fails leaves all files as they were, and it has printed nothing if the description could not
be read or is no protocol; that a protocol has no tokens never happens.  A run that succeeds gives the
protocol of the text in the description's file under the types of the host, has printed the summary and the
document as far as they were asked for, and has changed no file but the one for the canonical form, if that
was asked for. -/
theorem runOn_changes_only_output {place? : σ → String → Option Place}
    {file? : σ → Place → Option ByteArray} (hstore : Atomic place? file?) (o : Options) (s : σ) :
    (∀ e, (runOn o s).1.result = .error e → (runOn o s).2 = s ∧ (∀ fault, e ≠ .unformattable fault) ∧
      ((∃ path fault, e = .unreadable path fault) ∨ (∃ fault, e = .invalid fault) →
        (runOn o s).1.out = "")) ∧
    ∀ r, (runOn o s).1.result = .ok r → ∃ bytes text,
      (place? s o.protocol).bind (file? s) = some bytes ∧ String.fromUTF8? bytes = some text ∧
      parse o.hostTypes text = .ok r ∧
      (runOn o s).1.out =
        (if o.verbose then "--- Summary ---\n" ++ r.summary ++ "\n" else "") ++
          (if o.json then r.document.pretty ++ "\n" else "") ∧
      (o.beautify = false → (runOn o s).2 = s) ∧
      (o.beautify = true → ∃ ts place, tokenize text = .ok ts ∧
        place? s o.outputPath = some place ∧ place? (runOn o s).2 o.outputPath = some place ∧
        ∀ other, file? (runOn o s).2 other =
          if other = place then some (canonicalText Flags.normal ts).toUTF8 else file? s other) := by
  have hends : Ends o s (runOn o s) := ends_runOn hstore o s
  refine ⟨fun e he => hends.of_error he, ?_⟩
  generalize runOn o s = after at hends
  intro r hr
  -- What was shown comes with a protocol that was read; only one that was written touches the store.
  cases hends with
  | unreadable | invalid | unwritable => cases hr
  | shown hread hparse ho =>
    cases hr
    obtain ⟨bytes, hfile, htext⟩ := exists_bytes_of_textOf hstore hread
    exact ⟨bytes, _, hfile, htext, hparse, rfl, fun _ => rfl, by simp [ho]⟩
  | written hread hparse ho hts hwrite =>
    cases hr
    obtain ⟨bytes, hfile, htext⟩ := exists_bytes_of_textOf hstore hread
    obtain ⟨place, hplace, hplace', hother⟩ := hstore.write_ok _ _ _ _ hwrite
    exact ⟨bytes, _, hfile, htext, hparse, rfl, by simp [ho],
      fun _ => ⟨_, place, hts, hplace, hplace', hother⟩⟩

/-- A description that is beautified into a file beside it, in memory. -/
theorem runOn_changes_only_output_beside :
    ∃ o r after, Options.read ["-beautify", "-verbose", "-output=out.txt"] = .ok (.validate o) ∧
      runOn o (Directory.ofList [("protocol.txt", "name   x # c".toUTF8)]) =
        (⟨.ok r, "--- Summary ---\n" ++ r.summary ++ "\n"⟩, after) ∧
      after.file? ["out.txt"] = some "name x # c\n".toUTF8 ∧
      after.file? ["protocol.txt"] = some "name   x # c".toUTF8 := by
  let o : Options := ⟨"protocol.txt", some "out.txt", true, false, true, false, ["WorldPosition"], []⟩
  let d := Directory.ofList [("protocol.txt", "name   x # c".toUTF8)]
  obtain ⟨r, hr⟩ := exists_ok_of_isSome
    (show (runOn o d).1.result.toOption.isSome by decide +kernel)
  obtain ⟨bytes, text, hbytes, htext, -, hout, -, hafter⟩ :=
    (runOn_changes_only_output Directory.atomic o d).2 r hr
  obtain ⟨ts, place, hts, hplace, -, hfile⟩ := hafter rfl
  have hsource : (d.place? o.protocol).bind d.file? = some "name   x # c".toUTF8 := by decide +kernel
  cases Option.some.inj (hsource.symm.trans hbytes)
  have hname : String.fromUTF8? "name   x # c".toUTF8 = some "name   x # c" := by decide +kernel
  cases Option.some.inj (hname.symm.trans htext)
  have htokens : (tokenize "name   x # c").toOption.map (canonicalText Flags.normal) =
      some "name x # c\n" := by decide +kernel
  rw [hts] at htokens
  have hcanonical : canonicalText Flags.normal ts = "name x # c\n" := Option.some.inj htokens
  cases Option.some.inj ((show d.place? o.outputPath = some ["out.txt"] by decide +kernel).symm.trans
    hplace)
  refine ⟨o, r, (runOn o d).2, rfl, Prod.ext (congrArg₂ ValidationRun.mk hr ?_) rfl, ?_, ?_⟩
  · rw [hout]
    simp [o]
  · rw [hfile, if_pos rfl, hcanonical]
  · rw [hfile, if_neg (by decide)]
    decide +kernel

end Validation

end EntitySchema
