import RoutePolicy.Proofs.PolicyBlock

/-!
# Show commands

A device that holds a configuration knows two commands: the one for the listing, and the one for a
policy, which has the name of the policy behind its words.  A blank stands between the words and the
name; `CallsFor` says what each command calls for when it does.  The device does not look for the
blank, and takes a name that is glued to the words as if there were one.

* `commandPolicy?_eq_some_iff`  the policy that a command shows, with or without a gap;
* `policyBlock_eq_nil_iff`      a policy has no block just if no header opens it;
* `CallsFor`                    the answer that a command calls for;
* `runningConfig_answers`       the device gives it, unless the name is glued to the words.
-/

namespace RoutePolicy

/-! ## Commands for a policy -/

/-- The command is the words for a policy, the gap, the name, and blanks. -/
def NamesBehind (gap : List Char) (command name : String) : Prop :=
  ∃ trailing, command.toList = policyCommandWords.toList ++ gap ++ name.toList ++ trailing ∧
    Text.Blanks gap ∧ Text.Blanks trailing ∧ name ≠ "" ∧ Line.trim name = name

/-- The command is for this policy. -/
def ShowsPolicy (command name : String) : Prop :=
  ∃ gap, gap ≠ [] ∧ NamesBehind gap command name

/-- The name stands directly behind the words. -/
def Glued (command name : String) : Prop :=
  NamesBehind [] command name

theorem head_of_trimmed {name : String} (hne : name ≠ "") (htrim : Line.trim name = name) :
    ∃ c cs, name.toList = c :: cs ∧ Text.isBlank c = false := by
  have hcs : Text.trim name.toList = name.toList := by rw [← Line.toList_trim, htrim]
  have hcons : name.toList ≠ [] := by simpa using hne
  obtain ⟨c, cs, hname⟩ := List.exists_cons_of_ne_nil hcons
  have hstart : Text.trimStart name.toList = c :: cs := by rw [Text.trimStart_of_trim hcs, hname]
  exact ⟨c, cs, hname, Text.trimStart_head_solid hstart⟩

theorem NamesBehind.trim_after {gap trailing : List Char} {name : String} (hgap : Text.Blanks gap)
    (htrailing : Text.Blanks trailing) (hne : name ≠ "") (htrim : Line.trim name = name) :
    Text.trim (gap ++ (name.toList ++ trailing)) = name.toList := by
  obtain ⟨c, cs, hname, hc⟩ := head_of_trimmed hne htrim
  have hstart : Text.trimStart (name.toList ++ trailing) = name.toList ++ trailing := by
    rw [hname]
    exact Text.trimStart_cons_solid hc _
  have hend : Text.trimEnd name.toList = name.toList :=
    Text.trimEnd_of_trim (by rw [← Line.toList_trim, htrim])
  rw [Text.trim, hgap.trimStart_append, hstart, htrailing.trimEnd_append, hend]

theorem commandPolicy?_eq_some_iff {command name : String} :
    commandPolicy? command = some name ↔ ∃ gap, NamesBehind gap command name := by
  constructor
  · intro h
    rw [commandPolicy?] at h
    split at h
    · rename_i after hafter
      have hsome : Text.trim after ≠ [] ∧ String.ofList (Text.trim after) = name := by
        simpa using h
      obtain ⟨hne, rfl⟩ := hsome
      obtain ⟨gap, hgap, hstart⟩ := Text.exists_blanks_trimStart after
      obtain ⟨trailing, htrailing, hend⟩ := Text.exists_blanks_trimEnd (Text.trimStart after)
      refine ⟨gap, trailing, ?_, hgap, htrailing, by simpa using hne, ?_⟩
      · rw [Pattern.afterText_eq_some_iff.mp hafter, String.toList_ofList, List.append_assoc,
          List.append_assoc, Text.trim, ← hend, ← hstart]
      · rw [Line.trim, String.toList_ofList, Text.trim_trim]
    · cases h
  · rintro ⟨gap, trailing, hcommand, hgap, htrailing, hne, htrim⟩
    have htext := NamesBehind.trim_after hgap htrailing hne htrim
    rw [commandPolicy?, hcommand, List.append_assoc, List.append_assoc, Pattern.afterText_append]
    simp only [htext]
    rw [if_neg (by simpa using hne), String.ofList_toList]

section
variable {command name : String}

theorem ShowsPolicy.commandPolicy? (h : ShowsPolicy command name) :
    commandPolicy? command = some name := by
  obtain ⟨gap, _, hnames⟩ := h
  exact commandPolicy?_eq_some_iff.mpr ⟨gap, hnames⟩

theorem Glued.commandPolicy? (h : Glued command name) : commandPolicy? command = some name :=
  commandPolicy?_eq_some_iff.mpr ⟨[], h⟩

theorem showsPolicy_or_glued (h : commandPolicy? command = some name) :
    ShowsPolicy command name ∨ Glued command name := by
  obtain ⟨gap, hnames⟩ := commandPolicy?_eq_some_iff.mp h
  cases gap with
  | nil => exact .inr hnames
  | cons b gap => exact .inl ⟨b :: gap, List.cons_ne_nil b gap, hnames⟩

theorem ne_namesCommand_of_commandPolicy? (h : commandPolicy? command = some name) :
    command ≠ namesCommand := by
  have hnone : RoutePolicy.commandPolicy? namesCommand = none := by decide +kernel
  rintro rfl
  rw [hnone] at h
  cases h

/-- Behind the words stands a blank or it does not. -/
theorem Glued.not_showsPolicy (h : Glued command name) (other : String) :
    ¬ ShowsPolicy command other := by
  rintro ⟨gap, hne, trailing, hcommand, hgap, _⟩
  obtain ⟨trailing', hcommand', _, _, hname, htrim⟩ := h
  obtain ⟨c, cs, hcs, hsolid⟩ := head_of_trimmed hname htrim
  obtain ⟨b, gap, rfl⟩ := List.exists_cons_of_ne_nil hne
  rw [hcommand', hcs] at hcommand
  simp only [List.append_assoc, List.nil_append, List.append_cancel_left_eq, List.cons_append,
    List.cons.injEq] at hcommand
  rw [hcommand.1, hgap b List.mem_cons_self] at hsolid
  cases hsolid

/-- A command with one space in front of the name. -/
theorem showsPolicy_policyCommand (hne : name ≠ "") (htrim : Line.trim name = name) :
    ShowsPolicy (policyCommand name) name := by
  refine ⟨[' '], by simp, [], by simp [policyCommand], ?_, nofun, hne, htrim⟩
  exact List.forall_mem_singleton.mpr Text.isBlank_space

end

/-! ## The answer to a command -/

/-- A header of the configuration opens this policy. -/
def HasHeader (config name : String) : Prop :=
  ∃ line ∈ Line.ofText config, OpensPolicy line name

theorem hasHeader_iff {config name : String} :
    HasHeader config name ↔ ∃ line ∈ Line.ofText config, headerName? line = some name := by
  refine exists_congr fun line => and_congr_right fun hline => ?_
  exact (headerName?_eq_some_iff (Line.newline_not_mem_of_mem_ofText hline)).symm

theorem blockFrom_eq_nil {name : String} {lines : List String}
    (h : ∀ line ∈ lines, headerName? line ≠ some name) : blockFrom name false lines = [] := by
  induction lines with
  | nil => rfl
  | cons line rest ih =>
    have hline := h line List.mem_cons_self
    have hout : inBlock name false line = false ∧ insideAfter name false line = false := by
      rw [inBlock, insideAfter]
      cases hheader : headerName? line with
      | none => exact ⟨rfl, rfl⟩
      | some header =>
        have hname : header ≠ name := fun hname => hline (by rw [hheader, hname])
        exact ⟨decide_eq_false hname, decide_eq_false hname⟩
    rw [blockFrom_cons, hout.1, hout.2,
      ih fun other hother => h other (List.mem_cons_of_mem _ hother)]
    rfl

theorem policyBlock_eq_nil_iff {config name : String} :
    policyBlock name config = [] ↔ ¬ HasHeader config name := by
  rw [hasHeader_iff]
  constructor
  · intro hnil hheader
    exact blockFrom_ne_nil hheader false hnil
  · intro hnone
    exact blockFrom_eq_nil fun line hline hheader => hnone ⟨line, hline, hheader⟩

/-- The answer that a command calls for. -/
inductive CallsFor (config : String) : String → Except FetchFailure String → Prop where
  /-- the listing -/
  | listing : CallsFor config namesCommand (.ok (listing config))
  /-- a policy of the configuration -/
  | policy {command name : String} : ShowsPolicy command name → HasHeader config name →
      CallsFor config command (.ok (Line.join (policyBlock name config)))
  /-- a policy that the configuration does not have -/
  | missing {command name : String} : ShowsPolicy command name → ¬ HasHeader config name →
      CallsFor config command (.error (.missingPolicy name))
  /-- anything else -/
  | unsupported {command : String} : command ≠ namesCommand → (∀ name, ¬ ShowsPolicy command name) →
      CallsFor config command (.error (.unsupportedCommand command))

section
variable {config command name : String}

theorem configAnswer_of_hasHeader (h : commandPolicy? command = some name)
    (hheader : HasHeader config name) :
    configAnswer config command = .ok (Line.join (policyBlock name config)) := by
  rw [configAnswer, if_neg (ne_namesCommand_of_commandPolicy? h), h]
  have hblock : policyBlock name config ≠ [] := fun hnil => policyBlock_eq_nil_iff.mp hnil hheader
  obtain ⟨line, rest, hcons⟩ := List.exists_cons_of_ne_nil hblock
  simp only [hcons]

theorem configAnswer_of_not_hasHeader (h : commandPolicy? command = some name)
    (hheader : ¬ HasHeader config name) :
    configAnswer config command = .error (.missingPolicy name) := by
  rw [configAnswer, if_neg (ne_namesCommand_of_commandPolicy? h), h]
  simp only [policyBlock_eq_nil_iff.mpr hheader]

theorem configAnswer_of_none (hnames : command ≠ namesCommand) (h : commandPolicy? command = none) :
    configAnswer config command = .error (.unsupportedCommand command) := by
  rw [configAnswer, if_neg hnames, h]

/-- The answer depends on a command for a policy through the name alone. -/
theorem configAnswer_congr {other : String} (h : commandPolicy? command = some name)
    (h' : commandPolicy? other = some name) :
    configAnswer config command = configAnswer config other := by
  by_cases hheader : HasHeader config name
  · rw [configAnswer_of_hasHeader h hheader, configAnswer_of_hasHeader h' hheader]
  · rw [configAnswer_of_not_hasHeader h hheader, configAnswer_of_not_hasHeader h' hheader]

theorem callsFor_iff (hglued : ∀ name, ¬ Glued command name)
    {answer : Except FetchFailure String} :
    configAnswer config command = answer ↔ CallsFor config command answer := by
  have hshows : ∀ {name}, commandPolicy? command = some name → ShowsPolicy command name :=
    fun h => (showsPolicy_or_glued h).resolve_right (hglued _)
  constructor
  · rintro rfl
    by_cases hnames : command = namesCommand
    · subst hnames
      exact .listing
    · cases hpolicy : commandPolicy? command with
      | none =>
        rw [configAnswer_of_none hnames hpolicy]
        refine .unsupported hnames fun name hname => ?_
        rw [hname.commandPolicy?] at hpolicy
        cases hpolicy
      | some name =>
        by_cases hheader : HasHeader config name
        · rw [configAnswer_of_hasHeader hpolicy hheader]
          exact .policy (hshows hpolicy) hheader
        · rw [configAnswer_of_not_hasHeader hpolicy hheader]
          exact .missing (hshows hpolicy) hheader
  · intro h
    cases h with
    | listing => rfl
    | policy hshows hheader => exact configAnswer_of_hasHeader hshows.commandPolicy? hheader
    | missing hshows hheader => exact configAnswer_of_not_hasHeader hshows.commandPolicy? hheader
    | unsupported hnames hnone =>
      have hpolicy : commandPolicy? command = none :=
        Option.eq_none_iff_forall_ne_some.mpr fun name hname => hnone name (hshows hname)
      exact configAnswer_of_none hnames hpolicy

theorem Glued.not_unsupported (h : Glued command name) :
    configAnswer config command ≠ .error (.unsupportedCommand command) := by
  by_cases hheader : HasHeader config name
  · rw [configAnswer_of_hasHeader h.commandPolicy? hheader]
    exact nofun
  · rw [configAnswer_of_not_hasHeader h.commandPolicy? hheader]
    exact nofun

end

/-- **A configuration answers the two show commands, and takes glued names for spaced ones.**  The
command for the listing gets the listing; a command for a policy, with blanks in front of the name,
gets the block of the policy if a header opens it, and else that the policy is missing; and every
other command is unsupported.  This holds of a command just if it is not the words for a policy with
a name glued to them; such a command is answered as if a space stood in front of the name. -/
theorem runningConfig_answers (config command : String) :
    ((∀ answer, (Device.runningConfig config).ask command () = (answer, ()) ↔
        CallsFor config command answer) ↔ ∀ name, ¬ Glued command name) ∧
    ∀ name, Glued command name → (Device.runningConfig config).ask command ()
      = (Device.runningConfig config).ask (policyCommand name) () := by
  have hask : ∀ answer, (Device.runningConfig config).ask command () = (answer, ()) ↔
      configAnswer config command = answer := fun answer =>
    ⟨fun h => (Prod.mk.inj h).1, congrArg (·, ())⟩
  constructor
  · simp only [hask]
    refine ⟨fun h name hglued => ?_, fun hglued answer => callsFor_iff hglued⟩
    have hnames := ne_namesCommand_of_commandPolicy? hglued.commandPolicy?
    exact hglued.not_unsupported ((h _).mpr (.unsupported hnames hglued.not_showsPolicy))
  · intro name hglued
    have hpolicy := hglued.commandPolicy?
    obtain ⟨_, _, _, _, hne, htrim⟩ := hglued
    have hspaced := (showsPolicy_policyCommand hne htrim).commandPolicy?
    exact congrArg (·, ()) (configAnswer_congr hpolicy hspaced)

/-- the words for a policy with the name `A` glued to them -/
def gluedCommand : String := "show running-config route-policyA"

def dropConfig : String := "route-policy A\n drop\nend-policy"

theorem glued_gluedCommand : Glued gluedCommand "A" :=
  ⟨[], by decide +kernel, by decide, by decide, by decide, by decide +kernel⟩

/-- Other blanks than one space, and a name that no header opens. -/
theorem runningConfig_answers_otherBlanks :
    ShowsPolicy "show running-config route-policy\u3000\t B " "B" ∧ ¬ HasHeader dropConfig "B" ∧
    (Device.runningConfig dropConfig).ask "show running-config route-policy\u3000\t B " ()
      = (.error (.missingPolicy "B"), ()) ∧
    Glued gluedCommand "A" ∧
    (Device.runningConfig dropConfig).ask gluedCommand ()
      = (Device.runningConfig dropConfig).ask (policyCommand "A") () := by
  have hshows : ShowsPolicy "show running-config route-policy\u3000\t B " "B" :=
    ⟨"\u3000\t ".toList, by decide, [' '], by decide +kernel, by decide, by decide, by decide,
      by decide +kernel⟩
  have hheader : ¬ HasHeader dropConfig "B" := policyBlock_eq_nil_iff.mp (by decide +kernel)
  have hspaced : ∀ name, ¬ Glued "show running-config route-policy\u3000\t B " name :=
    fun name hglued => hglued.not_showsPolicy "B" hshows
  exact ⟨hshows, hheader,
    ((runningConfig_answers dropConfig _).1.mpr hspaced _).mpr (.missing hshows hheader),
    glued_gluedCommand, (runningConfig_answers dropConfig _).2 "A" glued_gluedCommand⟩

/-- A command that is none of the two gets the block of a policy. -/
theorem gluedCommand_answered :
    gluedCommand ≠ namesCommand ∧ (∀ name, ¬ ShowsPolicy gluedCommand name) ∧
      (Device.runningConfig dropConfig).ask gluedCommand () = (.ok dropConfig, ()) :=
  ⟨by decide, glued_gluedCommand.not_showsPolicy, rfl⟩

end RoutePolicy
