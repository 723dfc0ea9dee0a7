import EntitySchema.Proofs.Arguments.Spelling
import Mathlib.Data.List.Basic
/-!
  What the flags of a command line give.

  A command line is read one whole flag at a time: an argument, and the one behind it if it is a setting whose
  value does not stand behind an equals sign.

  1. **Whole flags.**  `Given` is what one whole flag gives and `Given.Spells` lists the ways to write it
     down.  Only a row of whole flags leads to options (`exists_flags`, by the recursion of the reader), and a
     row of them leads to the fold of what it gives, `gs.foldl take initial` (`readFrom_argumentsOf`).

  2. **Views.**  The fold is looked at through one view at a time: whether a switch is on, the protocol file,
     the output file, the types for archetypes and those for fields.  Each view follows one of two patterns,

      view (o.take g) = (given? g).getD (view o)          the last flag about it counts
      view (o.take g) = view o ++ (given? g).toList       all flags about it count

  where `given? g` is what `g` says about it, if anything.  The two patterns are carried over folds once
  (`foldl_take_last`, `foldl_take_all`).

  3. **Order.**  A view looks at flags of one name, so flags of different names can change places: if `gs` and
     `hs` agree on every `filter (·.flag = flag)`, all views of the folds agree, and options with the same
     views are the same (`foldl_take_of_filter_eq`).

  Main statement: `Options.read_inOneSpelling_and_in_any_order`.
-/

namespace EntitySchema

/-! ## Whole flags -/

/-- What one whole flag gives. -/
inductive Given where
  | switch (s : Switch) (on : Bool)
  | setting (s : Setting) (value : String)

namespace Given

/-- The flag by which it is given. -/
def flag : Given → Flag
  | switch s _ => .switch s
  | setting s _ => .setting s

/-- The words for a truth value. -/
def words : Bool → List String
  | true => ["1", "t", "T", "true", "TRUE", "True"]
  | false => ["0", "f", "F", "false", "FALSE", "False"]

/-- The arguments that give it: a switch alone or with a word for its truth value, a setting with its value or
with the value in the argument behind it. -/
inductive Spells : Given → List String → Prop where
  | alone {dashes : String} {s : Switch} (h : dashes ∈ Argument.hyphens) :
      Spells (.switch s true) [dashes ++ s.name]
  | word {dashes word : String} {s : Switch} {on : Bool} (h : dashes ∈ Argument.hyphens)
      (hword : word ∈ words on) : Spells (.switch s on) [dashes ++ s.name ++ "=" ++ word]
  | joined {dashes value : String} {s : Setting} (h : dashes ∈ Argument.hyphens) :
      Spells (.setting s value) [dashes ++ s.name ++ "=" ++ value]
  | behind {dashes value : String} {s : Setting} (h : dashes ∈ Argument.hyphens) :
      Spells (.setting s value) [dashes ++ s.name, value]

end Given

/-- One whole flag of a command line: what it gives, and the argument or the two that it is. -/
structure GivenFlag where
  given : Given
  arguments : List String
  spells : given.Spells arguments

namespace Options

/-- The options with one more flag given. -/
def take (o : Options) : Given → Options
  | .switch s on => o.setSwitch on s
  | .setting s value => o.set value s

/-- Whole flags one behind the other. -/
def argumentsOf (fs : List GivenFlag) : List String := fs.flatMap (·.arguments)

/-- Every word for a truth value is one. -/
theorem truth_eq_ok_of_mem {name word : String} {on : Bool} (h : word ∈ Given.words on) :
    Argument.truth ⟨name, some word⟩ = .ok on := by
  cases on <;> simp only [Given.words, List.mem_cons, List.not_mem_nil, or_false] at h
  · rcases h with rfl | rfl | rfl | rfl | rfl | rfl <;> rfl
  · rcases h with rfl | rfl | rfl | rfl | rfl | rfl <;> rfl

/-- There are no other words for it. -/
theorem mem_words_of_truth {name word : String} {on : Bool}
    (h : Argument.truth ⟨name, some word⟩ = .ok on) : word ∈ Given.words on := by
  simp only [Argument.truth] at h
  split at h
  · next hmem => cases h; exact hmem
  split at h
  · next hmem => cases h; exact hmem
  · cases h

/-- A whole flag in front gives what it spells. -/
theorem readFrom_of_spells {g : Given} {arguments : List String} (h : g.Spells arguments) (o : Options)
    (rest : List String) : o.readFrom (arguments ++ rest) = (o.take g).readFrom rest := by
  cases h with
  | @alone dashes s hdashes =>
    exact o.readFrom_switch rest (Argument.ofString?_name hdashes (Argument.plain_switch s)) rfl
  | @word dashes word s on hdashes hword =>
    exact o.readFrom_switch rest (Argument.ofString?_name_value hdashes (Argument.plain_switch s) word)
      (truth_eq_ok_of_mem hword)
  | @joined dashes value s hdashes =>
    exact o.readFrom_joined rest (Argument.ofString?_name_value hdashes (Argument.plain_setting s) value)
  | @behind dashes value s hdashes =>
    exact o.readFrom_behind rest (Argument.ofString?_name hdashes (Argument.plain_setting s))

/-- A row of whole flags gives what its flags give, from left to right. -/
theorem readFrom_argumentsOf (o : Options) (fs : List GivenFlag) :
    o.readFrom (argumentsOf fs) = ((fs.map (·.given)).foldl take o).finish := by
  induction fs generalizing o with
  | nil => rw [argumentsOf, List.flatMap_nil, readFrom]; rfl
  | cons f fs ih =>
    rw [argumentsOf, List.flatMap_cons, readFrom_of_spells f.spells]
    exact ih (o.take f.given)

/-- A command line that leads to options is a row of whole flags.  The cases are those of the reader: six of
them come to an end without options, and in the other three a flag in front is followed by a row of flags. -/
theorem exists_flags {o last : Options} {arguments : List String}
    (h : o.readFrom arguments = .ok (.validate last)) : ∃ fs, argumentsOf fs = arguments := by
  induction o, arguments using readFrom.induct with
  | case1 o => exact ⟨[], rfl⟩
  -- Whatever stops the reading or asks for help was not read to the end.
  | case2 o argument rest hnone => simp only [readFrom, hnone, reduceCtorEq] at h
  | case3 o argument rest a ha hname => simp only [readFrom, ha, hname, reduceCtorEq] at h
  | case4 o argument rest a ha hname =>
    simp only [readFrom, ha, hname, Except.ok.injEq, reduceCtorEq] at h
  | case5 o argument rest a ha s hname e htruth =>
    simp only [readFrom, ha, hname, htruth, reduceCtorEq] at h
  -- A switch stands alone or with a word for on or off.
  | case6 o argument rest a ha s hname on htruth ih =>
    simp only [readFrom, ha, hname, htruth] at h
    obtain ⟨fs, rfl⟩ := ih h
    obtain ⟨name, value?⟩ := a
    obtain rfl := Flag.eq_name_of_switch hname
    obtain ⟨dashes, hdashes, rfl⟩ := Argument.exists_hyphens_of_ofString? ha
    cases value? with
    | none =>
      cases htruth
      exact ⟨⟨_, _, .alone hdashes⟩ :: fs, rfl⟩
    | some word =>
      refine ⟨⟨.switch s on, _, .word hdashes (mem_words_of_truth htruth)⟩ :: fs, ?_⟩
      simp [argumentsOf, Argument.written, String.append_assoc]
  -- A setting has its value in the same argument.
  | case7 o argument rest a ha s hname value hvalue ih =>
    simp only [readFrom, ha, hname, hvalue] at h
    obtain ⟨fs, rfl⟩ := ih h
    obtain ⟨name, value?⟩ := a
    obtain rfl := Flag.eq_name_of_setting hname
    obtain rfl : value? = some value := hvalue
    obtain ⟨dashes, hdashes, rfl⟩ := Argument.exists_hyphens_of_ofString? ha
    refine ⟨⟨.setting s value, _, .joined hdashes⟩ :: fs, ?_⟩
    simp [argumentsOf, Argument.written, String.append_assoc]
  | case8 o argument a ha s hname hvalue => simp only [readFrom, ha, hname, hvalue, reduceCtorEq] at h
  -- Or it has its value in the next one.
  | case9 o argument a ha s hname hvalue value rest ih =>
    simp only [readFrom, ha, hname, hvalue] at h
    obtain ⟨fs, rfl⟩ := ih h
    obtain ⟨name, value?⟩ := a
    obtain rfl := Flag.eq_name_of_setting hname
    obtain rfl : value? = none := hvalue
    obtain ⟨dashes, hdashes, rfl⟩ := Argument.exists_hyphens_of_ofString? ha
    exact ⟨⟨_, _, .behind hdashes⟩ :: fs, rfl⟩

end Options

/-! ## What was given last, and what was given in all -/

namespace Given

/-- What it makes of a switch, if it is about it. -/
def on? (s : Switch) : Given → Option Bool
  | switch t on => if t = s then some on else none
  | setting _ _ => none

/-- The value it has for a setting, if it is about it. -/
def value? (s : Setting) : Given → Option String
  | switch _ _ => none
  | setting t value => if t = s then some value else none

/-- The truth values that were given to a switch, in order. -/
def truths (s : Switch) (gs : List Given) : List Bool := gs.filterMap (on? s)

/-- The values that were given to a setting, in order. -/
def values (s : Setting) (gs : List Given) : List String := gs.filterMap (value? s)

/-- Only the flags of its own name matter to a switch. -/
theorem truths_filter (s : Switch) (gs : List Given) :
    truths s (gs.filter (·.flag = .switch s)) = truths s gs := by
  rw [truths, List.filterMap_filter, truths]
  refine List.filterMap_congr fun g _ => ?_
  cases g with
  | switch t on =>
    by_cases ht : t = s
    · simp [flag, ht]
    · simp [flag, on?, ht]
  | setting => simp [flag, on?]

/-- Only the flags of its own name matter to a setting. -/
theorem values_filter (s : Setting) (gs : List Given) :
    values s (gs.filter (·.flag = .setting s)) = values s gs := by
  rw [values, List.filterMap_filter, values]
  refine List.filterMap_congr fun g _ => ?_
  cases g with
  | switch => simp [flag, value?]
  | setting t value =>
    by_cases ht : t = s
    · simp [flag, ht]
    · simp [flag, value?, ht]

end Given

namespace Options

/-- The switch is on. -/
def isOn (o : Options) : Switch → Bool
  | .verbose => o.verbose
  | .color => o.color
  | .beautify => o.beautify
  | .json => o.json

/-- The options are what the flags give: the last value of every switch, of the protocol file and of the output
file, where an empty one is none, and all types of the host in order. -/
structure GivenBy (o : Options) (gs : List Given) : Prop where
  isOn_eq : ∀ s, o.isOn s = (Given.truths s gs).getLast?.getD false
  protocol_eq : o.protocol = (Given.values .protocol gs).getLast?.getD "protocol.txt"
  output?_eq : o.output? = (Given.values .output gs).getLast?.filter (· ≠ "")
  componentTypes_eq : o.componentTypes =
    if Given.values .allow gs = [] then ["WorldPosition"] else Given.values .allow gs
  fieldTypes_eq : o.fieldTypes = Given.values .allowField gs

/-- Options are known by their views. -/
theorem eq_of_views {o o' : Options} (hon : ∀ s, o.isOn s = o'.isOn s) (hprotocol : o.protocol = o'.protocol)
    (houtput : o.output? = o'.output?) (hcomponents : o.componentTypes = o'.componentTypes)
    (hfields : o.fieldTypes = o'.fieldTypes) : o = o' := by
  obtain ⟨protocol, output?, verbose, color, beautify, json, components, fields⟩ := o
  obtain ⟨protocol', output?', verbose', color', beautify', json', components', fields'⟩ := o'
  obtain rfl : verbose = verbose' := hon .verbose
  obtain rfl : color = color' := hon .color
  obtain rfl : beautify = beautify' := hon .beautify
  obtain rfl : json = json' := hon .json
  cases hprotocol
  cases houtput
  cases hcomponents
  cases hfields
  rfl

/-! ### One more flag -/

section Take

variable (o : Options) (g : Given)

/-- One more flag turns a switch on or off if it is about that switch, and leaves it otherwise. -/
theorem isOn_take (s : Switch) : (o.take g).isOn s = ((g.on? s).map id).getD (o.isOn s) := by
  cases g with
  | switch t on => cases t <;> cases s <;> rfl
  | setting t => cases t <;> cases s <;> rfl

/-- The protocol file after one more flag. -/
theorem protocol_take : (o.take g).protocol = ((g.value? .protocol).map id).getD o.protocol := by
  cases g with
  | switch t => cases t <;> rfl
  | setting t => cases t <;> rfl

/-- The output file after one more flag; an empty name takes it back. -/
theorem output?_take : (o.take g).output? =
    ((g.value? .output).map fun value => if value.isEmpty then none else some value).getD o.output? := by
  cases g with
  | switch t => cases t <;> rfl
  | setting t => cases t <;> rfl

/-- The types for archetypes after one more flag. -/
theorem componentTypes_take :
    (o.take g).componentTypes = o.componentTypes ++ (g.value? .allow).toList := by
  cases g with
  | switch t => cases t <;> exact (List.append_nil _).symm
  | setting t =>
    cases t with
    | allow => rfl
    | protocol | output | allowField => exact (List.append_nil _).symm

/-- The types for fields after one more flag. -/
theorem fieldTypes_take : (o.take g).fieldTypes = o.fieldTypes ++ (g.value? .allowField).toList := by
  cases g with
  | switch t => cases t <;> exact (List.append_nil _).symm
  | setting t =>
    cases t with
    | allowField => rfl
    | protocol | output | allow => exact (List.append_nil _).symm

end Take

/-! ### All flags -/

section Fold

variable {α β : Type} {given? : Given → Option α}

/-- Where every flag that is about it puts something new, the last one of them counts: `view` is what is
looked at, and `put` what becomes of a value. -/
theorem foldl_take_last {view : Options → β} {put : α → β}
    (hview : ∀ o g, view (o.take g) = ((given? g).map put).getD (view o)) (o : Options) (gs : List Given) :
    view (gs.foldl take o) = ((gs.filterMap given?).getLast?.map put).getD (view o) := by
  induction gs generalizing o with
  | nil => rfl
  | cons g gs ih =>
    rw [List.foldl_cons, ih, hview, List.filterMap_cons]
    cases given? g with
    | none => rfl
    | some x =>
      rw [List.getLast?_cons]
      cases (gs.filterMap given?).getLast? <;> rfl

/-- Where every flag that is about it adds something, all of it adds up in order. -/
theorem foldl_take_all {view : Options → List α}
    (hview : ∀ o g, view (o.take g) = view o ++ (given? g).toList) (o : Options) (gs : List Given) :
    view (gs.foldl take o) = view o ++ gs.filterMap given? := by
  induction gs generalizing o with
  | nil => exact (List.append_nil _).symm
  | cons g gs ih =>
    rw [List.foldl_cons, ih, hview, List.append_assoc, List.filterMap_cons]
    cases given? g <;> rfl

end Fold

section Collected

variable (gs : List Given)

/-- A switch is what it was given last, and off if it was given nothing. -/
theorem isOn_foldl (s : Switch) :
    (gs.foldl take initial).isOn s = (Given.truths s gs).getLast?.getD false := by
  have h := @foldl_take_last _ _ (Given.on? s) (isOn · s) id (fun o g => isOn_take o g s) initial gs
  rw [Option.map_id] at h
  refine h.trans ?_
  cases s <;> rfl

/-- The protocol file that was given last. -/
theorem protocol_foldl :
    (gs.foldl take initial).protocol = (Given.values .protocol gs).getLast?.getD "protocol.txt" := by
  rw [foldl_take_last protocol_take, Option.map_id]
  rfl

/-- The output file that was given last, an empty one being none. -/
theorem output?_foldl :
    (gs.foldl take initial).output? = (Given.values .output gs).getLast?.filter (· ≠ "") := by
  rw [foldl_take_last output?_take]
  show _ = Option.filter _ (gs.filterMap (Given.value? .output)).getLast?
  cases (gs.filterMap (Given.value? .output)).getLast? with
  | none => rfl
  | some value =>
    by_cases hvalue : value = ""
    · subst hvalue
      rfl
    · simp [Option.filter, hvalue]

/-- All types for archetypes that were given. -/
theorem componentTypes_foldl :
    (gs.foldl take initial).componentTypes = Given.values .allow gs :=
  foldl_take_all componentTypes_take initial gs

/-- All types for fields that were given. -/
theorem fieldTypes_foldl : (gs.foldl take initial).fieldTypes = Given.values .allowField gs :=
  foldl_take_all fieldTypes_take initial gs

end Collected

/-- At the end of the command line the options are what was given. -/
theorem givenBy_of_finish {o : Options} {gs : List Given}
    (h : (gs.foldl take initial).finish = .ok (.validate o)) : o.GivenBy gs := by
  unfold finish at h
  split at h
  · cases h
  cases h
  refine ⟨fun s => ?_, protocol_foldl gs, output?_foldl gs, ?_, fieldTypes_foldl gs⟩
  · rw [← isOn_foldl]
    cases s <;> rfl
  · simp only [componentTypes_foldl, List.isEmpty_iff]
    rfl

/-- Flags in another order give the same, if those of one name keep theirs. -/
theorem foldl_take_of_filter_eq {gs hs : List Given}
    (h : ∀ flag, gs.filter (·.flag = flag) = hs.filter (·.flag = flag)) :
    gs.foldl take initial = hs.foldl take initial := by
  have htruths : ∀ s, Given.truths s gs = Given.truths s hs := by
    intro s
    rw [← Given.truths_filter, h, Given.truths_filter]
  have hvalues : ∀ s, Given.values s gs = Given.values s hs := by
    intro s
    rw [← Given.values_filter, h, Given.values_filter]
  refine eq_of_views (fun s => ?_) ?_ ?_ ?_ ?_
  · rw [isOn_foldl, isOn_foldl, htruths]
  · rw [protocol_foldl, protocol_foldl, hvalues]
  · rw [output?_foldl, output?_foldl, hvalues]
  · rw [componentTypes_foldl, componentTypes_foldl, hvalues]
  · rw [fieldTypes_foldl, fieldTypes_foldl, hvalues]

/-- Neither the spelling of a command line matters nor the order of flags with different names.  In one
spelling it is read as before, whatever comes of it.  If it leads to options `o`, then it is a row of whole
flags `fs`; the options are what those give, and so they are for the same flags `fs'` in any order that is
kept among flags of one name. -/
theorem read_inOneSpelling_and_in_any_order (arguments : List String) :
    read (inOneSpelling arguments) = read arguments ∧
    ∀ o, read arguments = .ok (.validate o) →
      (∃ fs, argumentsOf fs = arguments) ∧
      ∀ fs, argumentsOf fs = arguments →
        o.GivenBy (fs.map (·.given)) ∧
        ∀ fs' : List GivenFlag,
          (∀ flag, fs'.filter (·.given.flag = flag) = fs.filter (·.given.flag = flag)) →
          read (argumentsOf fs') = .ok (.validate o) := by
  refine ⟨readFrom_inOneSpelling initial arguments, fun o h => ⟨exists_flags h, ?_⟩⟩
  rintro fs rfl
  have hfinish := (readFrom_argumentsOf initial fs).symm.trans h
  refine ⟨givenBy_of_finish hfinish, fun fs' hsame => ?_⟩
  -- The flags that are given are those of the arguments, in the same order for each flag.
  have hgiven : ∀ flag, (fs'.map (·.given)).filter (·.flag = flag) =
      (fs.map (·.given)).filter (·.flag = flag) := by
    intro flag
    rw [List.filter_map, List.filter_map]
    exact congrArg (List.map (·.given)) (hsame flag)
  rw [read, readFrom_argumentsOf, foldl_take_of_filter_eq hgiven]
  exact hfinish

/-- A value that looks like a flag and one with an equals sign in it, a switch that is turned off again, and an
output file that is taken back; then the same flags in another order. -/
theorem read_inOneSpelling_and_in_any_order_mixed :
    let arguments := ["--verbose", "-output", "-json", "-allow=A", "-verbose=F", "--allow", "B=C", "-output="]
    let o : Options := ⟨"protocol.txt", none, false, false, false, false, ["A", "B=C"], []⟩
    read arguments = .ok (.validate o) ∧
      inOneSpelling arguments =
        ["-verbose", "-output=-json", "-allow=A", "-verbose=F", "-allow=B=C", "-output="] ∧
      read (inOneSpelling arguments) = .ok (.validate o) ∧
      read ["-output", "-json", "-allow=A", "-output=", "--verbose", "--allow", "B=C", "-verbose=F"] =
        .ok (.validate o) := by
  intro arguments o
  have hread : read arguments = .ok (.validate o) := rfl
  let on : GivenFlag := ⟨_, _, @Given.Spells.alone "--" .verbose (by decide)⟩
  let off : GivenFlag := ⟨_, _, @Given.Spells.word "-" "F" .verbose false (by decide) (by decide)⟩
  let file : GivenFlag := ⟨_, _, @Given.Spells.behind "-" "-json" .output (by decide)⟩
  let none : GivenFlag := ⟨_, _, @Given.Spells.joined "-" "" .output (by decide)⟩
  let first : GivenFlag := ⟨_, _, @Given.Spells.joined "-" "A" .allow (by decide)⟩
  let second : GivenFlag := ⟨_, _, @Given.Spells.behind "--" "B=C" .allow (by decide)⟩
  have hsame : ∀ flag, [file, first, none, on, second, off].filter (·.given.flag = flag) =
      [on, file, first, off, second, none].filter (·.given.flag = flag) := by
    intro flag
    rcases flag with _ | s | s
    · rfl
    · cases s <;> rfl
    · cases s <;> rfl
  obtain ⟨hspelling, horder⟩ := read_inOneSpelling_and_in_any_order arguments
  exact ⟨hread, rfl, hspelling.trans hread,
    ((horder o hread).2 [on, file, first, off, second, none] rfl).2 _ hsame⟩

end Options

end EntitySchema
