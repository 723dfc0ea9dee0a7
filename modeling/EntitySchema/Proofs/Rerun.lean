import EntitySchema.Directory
import EntitySchema.Proofs.Beautify
import EntitySchema.Validation
/-!
  Beautifying a description in place, twice.

  A run is a program over any store of files.  What it does is said once, as a cascade of the faults that can
  stop it (`Validation.runOn_eq`), and every statement on runs starts from there.  Here the files are files in
  memory, and of them three things are needed: when a read and a write succeed (`readAt_eq_ok_iff`,
  `writeAt_eq_ok_iff`), that what is written under one path is read under another path to the same place
  (`read_of_write`), and that a second write of a file changes nothing exactly if the same bytes are written
  (`write_again_iff`).

  The first run reads a description and puts its canonical text into its file.  The second run reads that
  text.  So it comes to the same again if two things hold, the text is read as the same protocol and it is its
  own canonical text; `parse_canonicalText_iff` says that they hold together exactly if the tokens of the
  description are fixed, and `run_again_iff` carries this over to the runs.  A comment that ends a file
  without a newline is a case where they are not fixed (`not_run_again_comment`).

  Main statement: `run_again_iff`.
-/

namespace EntitySchema

namespace Directory

/-- The place that a path leads to. -/
def place? (d : Directory) (path : String) : Option Place :=
  match Path.ofString path with
  | .error _ => none
  | .ok p => (d.locate p).toOption

/-- A path leads to a place if it is a path and its way is there. -/
theorem place?_eq_some_iff {d : Directory} {path : String} {place : Place} :
    d.place? path = some place ↔ ∃ p, Path.ofString path = .ok p ∧ d.locate p = .ok place := by
  unfold place?
  cases Path.ofString path with
  | error => simp
  | ok p => cases hplace : d.locate p <;> simp [hplace, Except.toOption]

/-- A read succeeds where a file is at the end of the way: no folder, no name that is too long, no slash
behind the name. -/
theorem readAt_eq_ok_iff {d : Directory} {p : Path} {bytes : ByteArray} :
    d.readAt p = .ok bytes ↔ ∃ place, d.locate p = .ok place ∧ d.isFolder place = false ∧
      lastTooLong p = false ∧ d.file? place = some bytes ∧ p.toFolder = false := by
  unfold readAt
  cases d.locate p with
  | error => simp
  | ok place =>
    simp only [Except.ok.injEq, exists_eq_left']
    cases d.isFolder place with
    | true => simp
    | false =>
      cases lastTooLong p with
      | true => simp
      | false => cases d.file? place <;> cases p.toFolder <;> simp

/-- The same with the path still to be made out. -/
theorem read_eq_ok_iff {d : Directory} {path : String} {bytes : ByteArray} :
    d.read path = .ok bytes ↔ ∃ p, Path.ofString path = .ok p ∧ d.readAt p = .ok bytes := by
  unfold read
  cases Path.ofString path <;> simp

/-- A write succeeds under the same conditions, but that there is a file already; and then the files `d'` are
those of `d` with `bytes` at the place. -/
theorem writeAt_eq_ok_iff {d d' : Directory} {p : Path} {bytes : ByteArray} :
    d.writeAt p bytes = .ok d' ↔ ∃ place, d.locate p = .ok place ∧ d.isFolder place = false ∧
      p.toFolder = false ∧ lastTooLong p = false ∧ ⟨put place bytes d.files⟩ = d' := by
  unfold writeAt
  cases d.locate p with
  | error => simp
  | ok place =>
    simp only [Except.ok.injEq, exists_eq_left']
    cases d.isFolder place <;> cases p.toFolder <;> cases lastTooLong p <;> simp

/-- The same with the path still to be made out. -/
theorem write_eq_ok_iff {d d' : Directory} {path : String} {bytes : ByteArray} :
    d.write path bytes = .ok d' ↔ ∃ p, Path.ofString path = .ok p ∧ d.writeAt p bytes = .ok d' := by
  unfold write
  cases Path.ofString path <;> simp

/-- What was written under one path is what is read under another one that leads to the same place. -/
theorem read_of_write {d d' : Directory} {path path' : String} {bytes old : ByteArray}
    (h : d.write path bytes = .ok d') (hold : d.read path' = .ok old)
    (hsame : d.place? path = d.place? path') : d'.read path' = .ok bytes := by
  obtain ⟨p, hp, hwrite⟩ := write_eq_ok_iff.1 h
  obtain ⟨place, hplace, -, -, -, rfl⟩ := writeAt_eq_ok_iff.1 hwrite
  obtain ⟨p', hp', hread⟩ := read_eq_ok_iff.1 hold
  obtain ⟨place', hplace', hfolder, hlong, -, hslash⟩ := readAt_eq_ok_iff.1 hread
  rw [place?_eq_some_iff.2 ⟨p, hp, hplace⟩, place?_eq_some_iff.2 ⟨p', hp', hplace'⟩] at hsame
  cases hsame
  refine read_eq_ok_iff.2 ⟨p', hp', readAt_eq_ok_iff.2
    ⟨place, locate_put hplace' place bytes, ?_, hlong, ?_, hslash⟩⟩
  · rw [isFolder_put_self, hfolder]
  · rw [file?_put, if_pos rfl]

/-- To write a file once more changes nothing exactly if the same is written.  From left to right the bytes at
the place are compared, from right to left a second `put` of the same bytes finds them there. -/
theorem write_again_iff {d d' : Directory} {path : String} {bytes bytes' : ByteArray}
    (h : d.write path bytes = .ok d') : d'.write path bytes' = .ok d' ↔ bytes' = bytes := by
  obtain ⟨p, hp, hwrite⟩ := write_eq_ok_iff.1 h
  obtain ⟨place, hplace, hfolder, hslash, hlong, rfl⟩ := writeAt_eq_ok_iff.1 hwrite
  have hfile : ∀ (files : List (Place × ByteArray)) (b : ByteArray),
      (⟨put place b files⟩ : Directory).file? place = some b := by
    intro files b
    rw [file?_put ⟨files⟩, if_pos rfl]
  constructor
  · intro hagain
    obtain ⟨p', hp', hwrite'⟩ := write_eq_ok_iff.1 hagain
    obtain ⟨place', hplace', -, -, -, hdir⟩ := writeAt_eq_ok_iff.1 hwrite'
    cases Except.ok.inj (hp'.symm.trans hp)
    cases Except.ok.inj (hplace'.symm.trans (locate_put hplace place bytes))
    have hsame := congrArg (file? · place) hdir
    rw [hfile, hfile] at hsame
    exact Option.some.inj hsame
  · rintro rfl
    refine write_eq_ok_iff.2 ⟨p, hp, writeAt_eq_ok_iff.2
      ⟨place, locate_put hplace place bytes', ?_, hslash, hlong, ?_⟩⟩
    · rw [isFolder_put_self, hfolder]
    -- Only the first file at the place is replaced, and it holds the same already.
    · have hput : ∀ files, put place bytes' (put place bytes' files) = put place bytes' files := by
        intro files
        induction files with
        | nil => simp [put]
        | cons file rest ih =>
          by_cases hplace : file.1 = place
          · simp [put, hplace]
          · simp [put, hplace, ih]
      rw [hput]

end Directory

/-! ## Files as a state -/

namespace FileStore

variable {σ : Type} [FileStore (StateM σ)]

/-- What a read answers, and the files after it. -/
def readIn (s : σ) (path : String) : Except FileError ByteArray × σ :=
  ((FileStore.read path : StateM σ (Except FileError ByteArray)).run s).run

/-- What a write answers, and the files after it. -/
def writeIn (s : σ) (path : String) (bytes : ByteArray) : Except FileError Unit × σ :=
  ((FileStore.write path bytes : StateM σ (Except FileError Unit)).run s).run

end FileStore

open FileStore (readIn writeIn)

/-- In memory a read changes nothing. -/
theorem Directory.readIn_eq (d : Directory) (path : String) : readIn d path = (d.read path, d) := rfl

/-- In memory a write that fails changes nothing, and one that succeeds leads to the new files. -/
theorem Directory.writeIn_eq (d : Directory) (path : String) (bytes : ByteArray) :
    writeIn d path bytes =
      match d.write path bytes with
      | .ok d' => (.ok (), d')
      | .error e => (.error e, d) := by
  simp only [writeIn, FileStore.write, StateT.run_bind, StateT.run_get, pure_bind]
  cases d.write path bytes <;> rfl

namespace Validation

/-- The bytes of a text are the bytes of that text. -/
theorem textOf_toUTF8 (text : String) : textOf (.ok text.toUTF8) = .ok text := by
  have h : String.fromUTF8? text.toUTF8 = some text := by
    simp only [String.fromUTF8?, String.toUTF8_eq_toByteArray, dif_pos text.isValidUTF8]
    rfl
  rw [textOf, h]

/-- Where there is a text there were bytes. -/
theorem exists_read_of_textOf {bytes : Except FileError ByteArray} {text : String}
    (h : textOf bytes = .ok text) : ∃ b, bytes = .ok b := by
  cases bytes with
  | error e => cases h
  | ok b => exact ⟨b, rfl⟩

/-! ## What a run does -/

section Store

variable {σ : Type} [FileStore (StateM σ)] {o : Options} {s : σ}

/-- A run on files: its outcome, and the files after it. -/
def runOn (o : Options) (s : σ) : ValidationRun × σ := ((run o : StateM σ ValidationRun).run s).run

/-- What a run does where reads change nothing, one fault after the other. -/
theorem runOn_eq (hkeeps : (readIn s o.protocol).2 = s) :
    runOn o s =
      match textOf (readIn s o.protocol).1 with
      | .error e => (⟨.error (.unreadable o.protocol e), ""⟩, s)
      | .ok text =>
        match parse o.hostTypes text with
        | .error e => (⟨.error (.invalid e), ""⟩, s)
        | .ok r =>
          if o.beautify then
            match tokenize text with
            | .error e => (⟨.error (.unformattable e), output o r⟩, s)
            | .ok ts =>
              match writeIn s o.outputPath (canonicalText Flags.normal ts).toUTF8 with
              | (.error e, after) => (⟨.error (.unwritable o.outputPath e), output o r⟩, after)
              | (.ok _, after) => (⟨.ok r, output o r⟩, after)
          else (⟨.ok r, output o r⟩, s) := by
  -- Reading leaves the store as it is, so the answer is all that goes on.
  have hread : (FileStore.read o.protocol : StateM σ (Except FileError ByteArray)).run s =
      pure ((readIn s o.protocol).1, s) :=
    Prod.ext rfl hkeeps
  simp only [runOn, run, StateT.run_bind, hread, pure_bind]
  cases textOf (readIn s o.protocol).1 with
  | error e => rfl
  | ok text =>
    simp only
    cases parse o.hostTypes text with
    | error e => rfl
    | ok r =>
      cases o.beautify with
      | false => rfl
      | true =>
        simp only [beautify, if_true, StateT.run_bind]
        cases tokenize text with
        | error e => rfl
        | ok ts =>
          have hwrite : (FileStore.write o.outputPath (canonicalText Flags.normal ts).toUTF8 :
              StateM σ (Except FileError Unit)).run s =
                pure (writeIn s o.outputPath (canonicalText Flags.normal ts).toUTF8) := rfl
          simp only [StateT.run_bind, hwrite, pure_bind]
          obtain ⟨answer, after⟩ := writeIn s o.outputPath (canonicalText Flags.normal ts).toUTF8
          cases answer <;> rfl

end Store

/-- A run on files in memory: its outcome, and the files after it. -/
def runIn (o : Options) (d : Directory) : ValidationRun × Directory :=
  ((run o : StateM Directory ValidationRun).run d).run

/-- Files in memory are files of one sort. -/
theorem runIn_eq_runOn (o : Options) (d : Directory) : runIn o d = runOn o d := rfl

/-- What a run that beautifies does, one fault after the other. -/
theorem runIn_of_beautify {o : Options} (ho : o.beautify = true) (d : Directory) :
    runIn o d =
      match textOf (d.read o.protocol) with
      | .error e => (⟨.error (.unreadable o.protocol e), ""⟩, d)
      | .ok source =>
        match parse o.hostTypes source with
        | .error e => (⟨.error (.invalid e), ""⟩, d)
        | .ok p =>
          match tokenize source with
          | .error e => (⟨.error (.unformattable e), output o p⟩, d)
          | .ok ts =>
            match d.write o.outputPath (canonicalText Flags.normal ts).toUTF8 with
            | .error e => (⟨.error (.unwritable o.outputPath e), output o p⟩, d)
            | .ok d' => (⟨.ok p, output o p⟩, d') := by
  rw [runIn_eq_runOn, runOn_eq rfl]
  simp only [Directory.readIn_eq, Directory.writeIn_eq, ho, if_true]
  cases textOf (d.read o.protocol) with
  | error e => rfl
  | ok source =>
    simp only
    cases parse o.hostTypes source with
    | error e => rfl
    | ok p =>
      simp only
      cases tokenize source with
      | error e => rfl
      | ok ts =>
        simp only
        cases d.write o.outputPath (canonicalText Flags.normal ts).toUTF8 <;> rfl

/-- A run that beautifies comes to a protocol exactly if the description is one and the canonical text of
its tokens can be written. -/
theorem runIn_eq_ok_iff {o : Options} (ho : o.beautify = true) {d d' : Directory} {r : Protocol}
    {out : String} :
    runIn o d = (⟨.ok r, out⟩, d') ↔
      ∃ source ts, textOf (d.read o.protocol) = .ok source ∧ parse o.hostTypes source = .ok r ∧
        tokenize source = .ok ts ∧
        d.write o.outputPath (canonicalText Flags.normal ts).toUTF8 = .ok d' ∧ output o r = out := by
  rw [runIn_of_beautify ho]
  cases textOf (d.read o.protocol) with
  | error e => simp
  | ok source =>
    simp only [Except.ok.injEq, exists_and_left, exists_eq_left']
    cases parse o.hostTypes source with
    | error e => simp
    | ok p =>
      cases tokenize source with
      | error e => simp
      | ok ts =>
        simp only [Except.ok.injEq, exists_eq_left']
        cases d.write o.outputPath (canonicalText Flags.normal ts).toUTF8 with
        | error e => simp
        | ok d' =>
          simp only [Prod.mk.injEq, ValidationRun.mk.injEq, Except.ok.injEq]
          constructor
          · rintro ⟨⟨rfl, rfl⟩, rfl⟩
            exact ⟨rfl, rfl, rfl⟩
          · rintro ⟨rfl, rfl, rfl⟩
            exact ⟨⟨rfl, rfl⟩, rfl⟩

/-- A run that beautifies a description in place comes to the same again exactly if the tokens of the
description are fixed.  The first run, with the options `o` on the files `d`, has read the protocol `r`,
printed `out` and left the files `d'`.  The second runs on `d'`, and the same means `r` with its hash, `out`,
and `d'` once more.  Fixed is `Lexeme.Fixed none` of the lexemes of `ts`, the tokens of the `source` that the
first run has read.  In place means that the two paths of the options lead to the same place of `d`; they need
not be the same path. -/
theorem run_again_iff {o : Options} (ho : o.beautify = true) {d d' : Directory}
    (hplace : d.place? o.outputPath = d.place? o.protocol) {r : Protocol} {out : String}
    (hrun : runIn o d = (⟨.ok r, out⟩, d')) :
    ∃ source ts, textOf (d.read o.protocol) = .ok source ∧ tokenize source = .ok ts ∧
      (runIn o d' = (⟨.ok r, out⟩, d') ↔ Lexeme.Fixed none (ts.map (·.lexeme))) := by
  obtain ⟨source, ts, hsource, hr, hts, hwrite, hout⟩ := (runIn_eq_ok_iff ho).1 hrun
  obtain ⟨us, hus, hfixed⟩ := parse_canonicalText_iff hr hts
  refine ⟨source, ts, hsource, hts, ?_⟩
  -- The second run reads what the first one wrote.
  have hread : textOf (d'.read o.protocol) = .ok (canonicalText Flags.normal ts) := by
    obtain ⟨bytes, hbytes⟩ := exists_read_of_textOf hsource
    rw [Directory.read_of_write hwrite hbytes hplace, textOf_toUTF8]
  rw [runIn_eq_ok_iff ho, ← hfixed]
  constructor
  · rintro ⟨source', us', hsource', hr', hus', hagain, -⟩
    cases Except.ok.inj (hread.symm.trans hsource')
    cases Except.ok.inj (hus.symm.trans hus')
    have hbytes := (Directory.write_again_iff hwrite).1 hagain
    rw [String.toUTF8_eq_toByteArray, String.toUTF8_eq_toByteArray] at hbytes
    exact ⟨hr', String.toByteArray_inj.1 hbytes⟩
  · rintro ⟨hr', htext⟩
    exact ⟨_, us, hread, hr', hus, (Directory.write_again_iff hwrite).2 (by rw [htext]), hout⟩

/-- A comment before the end of the last line stays where it is. -/
theorem run_again_line :
    ∃ o r out d', Options.read ["-beautify"] = .ok (.validate o) ∧
      runIn o (Directory.ofList [("protocol.txt", "name x # c\n".toUTF8)]) = (⟨.ok r, out⟩, d') ∧
      runIn o d' = (⟨.ok r, out⟩, d') := by
  let o : Options := ⟨"protocol.txt", none, false, false, true, false, ["WorldPosition"], []⟩
  let d := Directory.ofList [("protocol.txt", "name x # c\n".toUTF8)]
  have hsource : textOf (d.read o.protocol) = .ok "name x # c\n" := by decide +kernel
  have hts : tokenize "name x # c\n" = .ok [⟨.symbol "name", ⟨1, 1⟩⟩, ⟨.symbol "x", ⟨1, 6⟩⟩,
      ⟨.comment "c", ⟨1, 8⟩⟩, ⟨.endLine, ⟨1, 11⟩⟩] := by
    decide +kernel
  obtain ⟨r, hr⟩ := exists_ok_of_isSome
    (show (parse o.hostTypes "name x # c\n").toOption.isSome by decide +kernel)
  obtain ⟨d', hwrite⟩ := exists_ok_of_isSome (show (d.write o.outputPath (canonicalText Flags.normal
    [⟨.symbol "name", ⟨1, 1⟩⟩, ⟨.symbol "x", ⟨1, 6⟩⟩, ⟨.comment "c", ⟨1, 8⟩⟩,
      ⟨.endLine, ⟨1, 11⟩⟩]).toUTF8).toOption.isSome by decide +kernel)
  have hrun := (runIn_eq_ok_iff rfl).2 ⟨_, _, hsource, hr, hts, hwrite, rfl⟩
  -- Here the comment stands before a newline that was there.
  obtain ⟨source, ts, hsource', hts', hagain⟩ := run_again_iff rfl rfl hrun
  cases Except.ok.inj (hsource.symm.trans hsource')
  cases Except.ok.inj (hts.symm.trans hts')
  exact ⟨o, r, _, d', rfl, hrun, hagain.2 (by simp [Lexeme.Fixed, Lexeme.remember, Lexeme.isComment])⟩

/-- Without a newline at the end the comment ends the line, and the hash is another one. -/
theorem not_run_again_comment :
    ∃ o r out d', Options.read ["-beautify"] = .ok (.validate o) ∧ o.outputPath = o.protocol ∧
      runIn o (Directory.ofList [("protocol.txt", "name x # c".toUTF8)]) = (⟨.ok r, out⟩, d') ∧
      ∀ out' d'', runIn o d' ≠ (⟨.ok r, out'⟩, d'') := by
  let o : Options := ⟨"protocol.txt", none, false, false, true, false, ["WorldPosition"], []⟩
  let d := Directory.ofList [("protocol.txt", "name x # c".toUTF8)]
  have hsource : textOf (d.read o.protocol) = .ok "name x # c" := by decide +kernel
  have hts : tokenize "name x # c" = .ok [⟨.symbol "name", ⟨1, 1⟩⟩, ⟨.symbol "x", ⟨1, 6⟩⟩,
      ⟨.comment "c", ⟨1, 8⟩⟩] := by
    decide +kernel
  have htext : canonicalText Flags.normal [⟨.symbol "name", ⟨1, 1⟩⟩, ⟨.symbol "x", ⟨1, 6⟩⟩,
      ⟨.comment "c", ⟨1, 8⟩⟩] = "name x # c\n" := by
    decide +kernel
  obtain ⟨r, hr⟩ := exists_ok_of_isSome
    (show (parse o.hostTypes "name x # c").toOption.isSome by decide +kernel)
  obtain ⟨d', hwrite⟩ := exists_ok_of_isSome
    (show (d.write o.outputPath "name x # c\n".toUTF8).toOption.isSome by decide +kernel)
  refine ⟨o, r, _, d', rfl, rfl,
    (runIn_eq_ok_iff rfl).2 ⟨_, _, hsource, hr, hts, htext ▸ hwrite, rfl⟩, ?_⟩
  intro out' d'' hagain
  obtain ⟨source, ts, hsource', hr', -⟩ := (runIn_eq_ok_iff rfl).1 hagain
  have hread : textOf (d'.read o.protocol) = .ok "name x # c\n" := by
    rw [show d'.read o.protocol = _ from Directory.read_write hwrite, textOf_toUTF8]
  cases Except.ok.inj (hread.symm.trans hsource')
  -- The comment has ended its line, so the second hash is taken over one newline more.
  have hhash : (parse o.hostTypes "name x # c").toOption.map Protocol.hash ≠
      (parse o.hostTypes "name x # c\n").toOption.map Protocol.hash := by
    decide +kernel
  rw [hr, hr'] at hhash
  exact hhash rfl

end Validation

end EntitySchema
