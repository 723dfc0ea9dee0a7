import EntitySchema.Options
import Mathlib.Data.List.TakeWhile
/-!
  Command lines in one spelling.

  An argument is a flag behind one hyphen or two, and a setting has its value behind an equals sign or in the
  argument after it.  What an argument is read as and how it was written determine each other, up to the
  hyphens: with `a.written` for the name and, if there is one, the value behind an equals sign,

      Argument.ofString? argument = some a   →   argument = dashes ++ a.written   for "-" or "--" as dashes
      Argument.ofString? (dashes ++ a.written) = some a   if the name of a is Plain

  (`exists_hyphens_of_ofString?`, `ofString?_written`).  A name is plain if it holds no equals sign and starts
  with no hyphen, as the names of all switches and settings do.  A value can be anything; only the first
  equals sign counts.

  So one spelling is enough.  `Options.inOneSpelling` rewrites a command line to single hyphens and equals
  signs, on its way from left to right, and it is read as before, with the same fault or call for help if
  there is one.  The proof is an induction along the recursion of `readFrom`, with a case for each thing that
  can stand in front.  The walk of `inOneSpelling` has fewer cases, since it only asks whether an argument is
  a bare setting (`mem_bareSettings_iff`); a faulty argument is rewritten like any other, and both sides stop
  at it.

  Main statement: `Options.readFrom_inOneSpelling`.
-/

namespace EntitySchema

/-- The name of a switch. -/
def Switch.name : Switch → String
  | .verbose => "verbose"
  | .color => "color"
  | .beautify => "beautify"
  | .json => "json"

/-- The name of a setting. -/
def Setting.name : Setting → String
  | .protocol => "protocol"
  | .output => "output"
  | .allow => "allow"
  | .allowField => "allow-field"

namespace Flag

/-- A switch is known by its name. -/
theorem ofName?_switch (s : Switch) : ofName? s.name = some (.switch s) := by cases s <;> rfl

/-- So is a setting. -/
theorem ofName?_setting (s : Setting) : ofName? s.name = some (.setting s) := by cases s <;> rfl

/-- No other name is that of a switch. -/
theorem eq_name_of_switch {name : String} {s : Switch} (h : ofName? name = some (.switch s)) :
    name = s.name := by
  unfold ofName? at h
  split at h <;> cases h <;> rfl

/-- No other name is that of a setting. -/
theorem eq_name_of_setting {name : String} {s : Setting} (h : ofName? name = some (.setting s)) :
    name = s.name := by
  unfold ofName? at h
  split at h <;> cases h <;> rfl

end Flag

/-! ## How an argument is written -/

namespace Argument

/-- What can stand in front of a name. -/
def hyphens : List String := ["-", "--"]

/-- An argument behind its hyphens. -/
def written (a : Argument) : String :=
  match a.value? with
  | none => a.name
  | some value => a.name ++ "=" ++ value

/-- The name cannot be taken for hyphens or cut at an equals sign. -/
def Plain (name : String) : Prop := '=' ∉ name.toList ∧ name.toList.head? ≠ some '-'

instance (name : String) : Decidable (Plain name) := by unfold Plain; infer_instance

/-- The names of switches are plain. -/
theorem plain_switch (s : Switch) : Plain s.name := by cases s <;> decide

/-- The names of settings are plain. -/
theorem plain_setting (s : Setting) : Plain s.name := by cases s <;> decide

/-- Nothing of what stands behind the hyphens is lost: the equals sign that `split` takes out is put back by
`written`. -/
theorem written_split (cs : List Char) : (split cs).written.toList = cs := by
  have hsplit : cs.takeWhile (· ≠ '=') ++ cs.dropWhile (· ≠ '=') = cs := List.takeWhile_append_dropWhile
  unfold written split
  simp only
  cases hdrop : cs.dropWhile (· ≠ '=') with
  | nil =>
    rw [hdrop, List.append_nil] at hsplit
    simpa using hsplit
  | cons c value =>
    have hc : c = '=' := by
      have hnot := List.head?_dropWhile_not (· ≠ '=') cs
      rw [hdrop] at hnot
      simpa using hnot
    rw [hdrop, hc] at hsplit
    simpa using hsplit

/-- An argument is cut where it was joined, if the name has no equals sign of its own. -/
theorem split_written {a : Argument} (h : '=' ∉ a.name.toList) : split a.written.toList = a := by
  obtain ⟨name, value?⟩ := a
  have hall : ∀ c ∈ name.toList, decide (c ≠ '=') = true := by
    intro c hc
    simpa using fun heq : c = '=' => h (heq ▸ hc)
  cases value? with
  | none =>
    have htake : name.toList.takeWhile (· ≠ '=') = name.toList :=
      List.takeWhile_eq_self_iff.2 hall
    have hdrop : name.toList.dropWhile (· ≠ '=') = [] := List.dropWhile_eq_nil_iff.2 hall
    simp only [written, split, htake, hdrop, String.ofList_toList]
  | some value =>
    have htext : (written ⟨name, some value⟩).toList = name.toList ++ '=' :: value.toList := by
      simp [written]
    rw [htext, split, List.takeWhile_append_of_pos hall, List.dropWhile_append_of_pos hall]
    simp

/-- An argument that is read was written with its hyphens. -/
theorem exists_hyphens_of_ofString? {argument : String} {a : Argument} (h : ofString? argument = some a) :
    ∃ dashes ∈ hyphens, argument = dashes ++ a.written := by
  obtain ⟨cs, hbody, rfl⟩ := Option.map_eq_some_iff.1 h
  have hwritten := written_split cs
  unfold body? at hbody
  split at hbody
  · next hcons =>
    cases hbody
    exact ⟨"--", by decide, by simp [← String.toList_inj, hcons, hwritten]⟩
  · next hcons =>
    cases hbody
    exact ⟨"-", by decide, by simp [← String.toList_inj, hcons, hwritten]⟩
  · cases hbody

/-- An argument that is written with hyphens is read. -/
theorem ofString?_written {dashes : String} {a : Argument} (h : dashes ∈ hyphens) (ha : Plain a.name) :
    ofString? (dashes ++ a.written) = some a := by
  have hsplit := split_written ha.1
  have hhead : a.written.toList.head? ≠ some '-' := by
    have hname := ha.2
    unfold written
    split
    · exact hname
    · rw [String.toList_append, String.toList_append]
      cases hcs : a.name.toList with
      | nil => simp
      | cons c cs => simpa [hcs] using hname
  have hbody : body? (dashes ++ a.written).toList = some a.written.toList := by
    simp only [hyphens, List.mem_cons, List.not_mem_nil, or_false] at h
    -- One hyphen or two: the name starts with none, so no more are taken.
    rcases h with rfl | rfl
    · rw [String.toList_append, show "-".toList = ['-'] from rfl, List.singleton_append]
      unfold body?
      split
      · next hcons => simp [(List.cons.inj hcons).2] at hhead
      · next hcons => cases hcons; rfl
      · next hnone => exact absurd rfl (hnone _)
    · rw [String.toList_append]
      rfl
  rw [ofString?, hbody, Option.map_some, hsplit]

/-- A plain name behind hyphens is an argument without a value. -/
theorem ofString?_name {dashes name : String} (h : dashes ∈ hyphens) (hname : Plain name) :
    ofString? (dashes ++ name) = some ⟨name, none⟩ :=
  @ofString?_written dashes ⟨name, none⟩ h hname

/-- A plain name with an equals sign behind it is an argument with a value, whatever the value is. -/
theorem ofString?_name_value {dashes name : String} (h : dashes ∈ hyphens) (hname : Plain name)
    (value : String) : ofString? (dashes ++ name ++ "=" ++ value) = some ⟨name, some value⟩ := by
  have ha := @ofString?_written dashes ⟨name, some value⟩ h hname
  simpa only [written, ← String.append_assoc] using ha

/-! ## One spelling -/

/-- Two hyphens in front, and no third, become one. -/
def shorten (argument : String) : String :=
  match argument.toList with
  | '-' :: '-' :: cs => if cs.head? = some '-' then argument else String.ofList ('-' :: cs)
  | _ => argument

/-- The settings with one hyphen and without a value. -/
def bareSettings : List String := ["-protocol", "-output", "-allow", "-allow-field"]

/-- An argument is read as it is with one hyphen less. -/
theorem ofString?_shorten (argument : String) : ofString? (shorten argument) = ofString? argument := by
  unfold shorten
  split
  · next cs hcons =>
    split
    · rfl
    · next hhead =>
      have hbody : body? ('-' :: cs) = some cs := by
        unfold body?
        split
        · next heq => simp [(List.cons.inj heq).2] at hhead
        · next heq => cases heq; rfl
        · next hnone => exact absurd rfl (hnone _)
      rw [ofString?, ofString?, hcons, String.toList_ofList, hbody]
      rfl
  · rfl

/-- What is no flag has no hyphen to lose. -/
theorem shorten_of_ofString?_eq_none {argument : String} (h : ofString? argument = none) :
    shorten argument = argument := by
  unfold shorten
  split
  · next cs hcons =>
    rw [ofString?, hcons] at h
    cases h
  · rfl

/-- A setting without a value is a bare one once it is shortened. -/
theorem shorten_eq_of_setting {argument : String} {s : Setting}
    (h : ofString? argument = some ⟨s.name, none⟩) : shorten argument = "-" ++ s.name := by
  obtain ⟨dashes, hdashes, rfl⟩ := exists_hyphens_of_ofString? h
  simp only [hyphens, List.mem_cons, List.not_mem_nil, or_false] at hdashes
  rcases hdashes with rfl | rfl <;> cases s <;> rfl

/-- One look at the shortened argument tells whether it is a setting that still needs its value. -/
theorem mem_bareSettings_iff {argument : String} :
    shorten argument ∈ bareSettings ↔ ∃ s : Setting, ofString? argument = some ⟨s.name, none⟩ := by
  constructor
  · intro h
    have hread : ∀ bare ∈ bareSettings, ∃ s : Setting, ofString? bare = some ⟨s.name, none⟩ := by
      simp only [bareSettings, List.forall_mem_cons, List.not_mem_nil, false_implies, implies_true, and_true]
      exact ⟨⟨.protocol, rfl⟩, ⟨.output, rfl⟩, ⟨.allow, rfl⟩, ⟨.allowField, rfl⟩⟩
    rw [← ofString?_shorten]
    exact hread _ h
  · rintro ⟨s, hs⟩
    rw [shorten_eq_of_setting hs]
    cases s <;> decide

/-- A bare setting joined with its value is the setting with that value. -/
theorem ofString?_joined {argument : String} {s : Setting} (h : ofString? argument = some ⟨s.name, none⟩)
    (value : String) : ofString? (shorten argument ++ "=" ++ value) = some ⟨s.name, some value⟩ := by
  rw [shorten_eq_of_setting h]
  exact ofString?_name_value (by decide) (plain_setting s) value

end Argument

namespace Options

open Argument (shorten bareSettings)

/-! ### What one flag in front does -/

section Front

variable (o : Options) {argument : String} {s : Switch} {t : Setting} {value? : Option String}
  {on : Bool} {value : String} (rest : List String)

/-- A switch in front is set, if what stands behind its equals sign is a truth value. -/
theorem readFrom_switch (h : Argument.ofString? argument = some ⟨s.name, value?⟩)
    (hon : Argument.truth ⟨s.name, value?⟩ = .ok on) :
    o.readFrom (argument :: rest) = (o.setSwitch on s).readFrom rest := by
  simp only [readFrom, h, Flag.ofName?_switch, hon]

/-- A setting in front takes the value behind its equals sign. -/
theorem readFrom_joined (h : Argument.ofString? argument = some ⟨t.name, some value⟩) :
    o.readFrom (argument :: rest) = (o.set value t).readFrom rest := by
  simp only [readFrom, h, Flag.ofName?_setting]

/-- Without one it takes the argument behind it, even if that looks like a flag. -/
theorem readFrom_behind (h : Argument.ofString? argument = some ⟨t.name, none⟩) :
    o.readFrom (argument :: value :: rest) = (o.set value t).readFrom rest := by
  simp only [readFrom, h, Flag.ofName?_setting]

end Front

/-! ### The whole line -/

/-- A command line from left to right with single hyphens, and with every bare setting joined with the
argument behind it, whatever that is. -/
def inOneSpelling : List String → List String
  | [] => []
  | [argument] => [shorten argument]
  | argument :: value :: rest =>
    if shorten argument ∈ bareSettings then (shorten argument ++ "=" ++ value) :: inOneSpelling rest
    else shorten argument :: inOneSpelling (value :: rest)

/-- What is no bare setting is shortened and leaves the argument behind it alone. -/
theorem inOneSpelling_of_not_mem {argument : String} (h : shorten argument ∉ bareSettings)
    (rest : List String) :
    inOneSpelling (argument :: rest) = shorten argument :: inOneSpelling rest := by
  cases rest with
  | nil => rfl
  | cons value rest => rw [inOneSpelling, if_neg h]

/-- No bare setting has a value or another flag. -/
theorem not_mem_bareSettings {argument : String} {a : Argument} (h : Argument.ofString? argument = some a)
    (ha : ∀ s, Flag.ofName? a.name = some (.setting s) → a.value? ≠ none) :
    shorten argument ∉ bareSettings := by
  intro hmem
  obtain ⟨s, hs⟩ := Argument.mem_bareSettings_iff.1 hmem
  rw [h, Option.some.injEq] at hs
  subst hs
  exact ha s (Flag.ofName?_setting s) rfl

/-- In one spelling a command line says what it said before: the same options, the same call for help, the
same fault. -/
theorem readFrom_inOneSpelling (o : Options) (arguments : List String) :
    o.readFrom (inOneSpelling arguments) = o.readFrom arguments := by
  induction o, arguments using readFrom.induct with
  | case1 o => rfl
  | case2 o argument rest hnone =>
    have hbare : shorten argument ∉ bareSettings := by
      intro hmem
      obtain ⟨s, hs⟩ := Argument.mem_bareSettings_iff.1 hmem
      cases hnone.symm.trans hs
    rw [inOneSpelling_of_not_mem hbare, Argument.shorten_of_ofString?_eq_none hnone]
    simp only [readFrom, hnone]
  | case3 o argument rest a ha hname =>
    rw [inOneSpelling_of_not_mem (not_mem_bareSettings ha fun s hs => by cases hname.symm.trans hs)]
    simp only [readFrom, Argument.ofString?_shorten, ha, hname]
  | case4 o argument rest a ha hname =>
    rw [inOneSpelling_of_not_mem (not_mem_bareSettings ha fun s hs => by cases hname.symm.trans hs)]
    simp only [readFrom, Argument.ofString?_shorten, ha, hname]
  | case5 o argument rest a ha s hname e htruth =>
    rw [inOneSpelling_of_not_mem (not_mem_bareSettings ha fun s hs => by cases hname.symm.trans hs)]
    simp only [readFrom, Argument.ofString?_shorten, ha, hname, htruth]
  | case6 o argument rest a ha s hname on htruth ih =>
    rw [inOneSpelling_of_not_mem (not_mem_bareSettings ha fun s hs => by cases hname.symm.trans hs)]
    simp only [readFrom, Argument.ofString?_shorten, ha, hname, htruth, ih]
  | case7 o argument rest a ha s hname value hvalue ih =>
    rw [inOneSpelling_of_not_mem (not_mem_bareSettings ha fun s hs => by simp [hvalue])]
    simp only [readFrom, Argument.ofString?_shorten, ha, hname, hvalue, ih]
  | case8 o argument a ha s hname hvalue =>
    simp only [inOneSpelling, readFrom, Argument.ofString?_shorten, ha, hname, hvalue]
  | case9 o argument a ha s hname hvalue value rest ih =>
    have hbare : Argument.ofString? argument = some ⟨s.name, none⟩ := by
      rw [ha, ← Flag.eq_name_of_setting hname, ← hvalue]
    -- Here alone two arguments become one, so the induction skips the value as well.
    rw [inOneSpelling, if_pos (Argument.mem_bareSettings_iff.2 ⟨s, hbare⟩), readFrom_behind o rest hbare,
      readFrom_joined o _ (Argument.ofString?_joined hbare value), ih]

end Options

end EntitySchema
