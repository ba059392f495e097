import Mathlib.Data.List.Induction
import RoutePolicy.Proofs.HeaderLine

/-!
# Scanning for headers

A scan carries a context along, and the name that a header gives is put there.  Read back from the
context the name is still that of the line: every line that is taken for a header sets it, so what
the context held before is never seen.

* `policyNames_eq_iff`   the names of a listing are those of its header lines, in order;
* `scanHeader_fst`       a name that is read back from the context is the one on the line;
* `scanLine_hit`, `scanLine_miss`   what one line does to the context, with any classes allowed;
* `latestName_scanAll`   so after a run the context has the name of the latest header.
-/

namespace RoutePolicy

/-! ## The names of a listing -/

/-- The names that lines give, in order; a line that opens no policy gives none. -/
inductive Headers : List String → List String → Prop where
  | nil : Headers [] []
  | opened {line name : String} {lines names : List String} :
      OpensPolicy line name → Headers lines names → Headers (line :: lines) (name :: names)
  | other {line : String} {lines names : List String} :
      (∀ name, ¬ OpensPolicy line name) → Headers lines names → Headers (line :: lines) names

theorem filterMap_headerName?_eq_iff {lines names : List String}
    (hlines : ∀ line ∈ lines, '\n' ∉ line.toList) :
    lines.filterMap headerName? = names ↔ Headers lines names := by
  constructor
  · rintro rfl
    induction lines with
    | nil => exact .nil
    | cons line lines ih =>
      have ih' := ih fun l hl => hlines l (List.mem_cons_of_mem line hl)
      cases hname : headerName? line with
      | some name =>
        rw [List.filterMap_cons_some hname]
        exact .opened (opensPolicy_of_headerName? hname) ih'
      | none =>
        rw [List.filterMap_cons_none hname]
        refine .other (fun name hopens => ?_) ih'
        rw [headerName?_of_opensPolicy (hlines line List.mem_cons_self) hopens] at hname
        cases hname
  · intro h
    induction h with
    | nil => rfl
    | @opened line name lines names hopens _ ih =>
      have hname := headerName?_of_opensPolicy (hlines line List.mem_cons_self) hopens
      rw [List.filterMap_cons_some hname, ih fun l hl => hlines l (List.mem_cons_of_mem line hl)]
    | @other line lines names hother _ ih =>
      have hname : headerName? line = none :=
        Option.eq_none_iff_forall_ne_some.mpr fun name hname =>
          hother name (opensPolicy_of_headerName? hname)
      rw [List.filterMap_cons_none hname, ih fun l hl => hlines l (List.mem_cons_of_mem line hl)]

theorem policyNames_eq_iff {listing : String} {names : List String} :
    policyNames listing = names ↔ Headers (Line.ofText listing) names :=
  filterMap_headerName?_eq_iff fun _ => Line.newline_not_mem_of_mem_ofText

/-! ## One line in a context -/

/-- The rule for headers gives the name and nothing else. -/
theorem eq_of_match?_header {cs : List Char} {m : Match} (h : Catalog.header.match? cs = some m) :
    ∃ name, m = ⟨Catalog.header, [("name", .text name)]⟩ := by
  obtain ⟨caps, hcaps, rfl⟩ := Option.map_eq_some_iff.mp h
  obtain ⟨name, _, _, _, _, rfl⟩ := Pattern.captures_header_iff.mp hcaps
  exact ⟨String.ofList name, rfl⟩

/-- The name of a line, read back from the context behind the line. -/
def scanHeader (line : String) (context : ScanContext) : Option String × ScanContext :=
  if (line.toList.head?).any Text.isBlank then (none, context)
  else
    match scanLine (· = .header) line context with
    | (some _, context) => (context.name, context)
    | (none, context) => (none, context)

/-- The names of lines, read back from one context that goes from line to line. -/
def scanHeaders : List String → ScanContext → List String × ScanContext
  | [], context => ([], context)
  | line :: lines, context =>
    let (name, context) := scanHeader line context
    let (names, context) := scanHeaders lines context
    (name.toList ++ names, context)

theorem scanHeader_fst (line : String) (context : ScanContext) :
    (scanHeader line context).1 = headerName? line := by
  rw [scanHeader, headerName?]
  split
  · rfl
  · rw [scanLine]
    cases hm : recognize (· = .header) line with
    | none => rfl
    | some m =>
      rw [recognize_header] at hm
      obtain ⟨name, rfl⟩ := eq_of_match?_header hm
      rfl

theorem scanHeaders_fst (lines : List String) (context : ScanContext) :
    (scanHeaders lines context).1 = lines.filterMap headerName? := by
  induction lines generalizing context with
  | nil => rfl
  | cons line lines ih =>
    show (scanHeader line context).1.toList ++ (scanHeaders lines (scanHeader line context).2).1 = _
    rw [scanHeader_fst, ih]
    cases hname : headerName? line with
    | none => rw [List.filterMap_cons_none hname]; rfl
    | some name => rw [List.filterMap_cons_some hname]; rfl

/-! ## Runs with one context -/

/-- One line of a run, and the classes that are allowed for it. -/
structure ScanCall where
  allowed : LineClass → Bool
  line : String

/-- The line is taken for a header. -/
def ScanCall.Hits (call : ScanCall) : Prop :=
  ∃ m, recognize call.allowed call.line = some m ∧ m.rule = Catalog.header

/-- The context after a run. -/
def scanAll (calls : List ScanCall) (context : ScanContext) : ScanContext :=
  calls.foldl (fun context call => (scanLine call.allowed call.line context).2) context

/-- The name that a run leaves: the one before it where no line was taken for a header, and else the
one that the latest such line captured. -/
inductive LatestName (calls : List ScanCall) (start : Option String) : Option String → Prop where
  | unchanged : (∀ call ∈ calls, ¬ call.Hits) → LatestName calls start start
  | captured {before after : List ScanCall} {call : ScanCall} {m : Match} {name : String} :
      calls = before ++ call :: after → recognize call.allowed call.line = some m →
      m.rule = Catalog.header → m.text? "name" = some name → (∀ later ∈ after, ¬ later.Hits) →
      LatestName calls start (some name)

theorem eq_header_of_lineClass {rule : Rule} (hrule : rule ∈ catalog)
    (hclass : rule.lineClass = .header) : rule = Catalog.header := by
  have hmem : rule ∈ Catalog.ofClass .header := by
    rw [ofClass_eq_filter, List.mem_filter]
    exact ⟨hrule, decide_eq_true hclass⟩
  exact List.mem_singleton.mp hmem

theorem rule_of_match? {rule : Rule} {cs : List Char} {m : Match} (h : rule.match? cs = some m) :
    m.rule = rule := by
  obtain ⟨caps, _, rfl⟩ := Option.map_eq_some_iff.mp h
  rfl

section
variable {call : ScanCall} (context : ScanContext)

theorem scanLine_hit {m : Match} (hm : recognize call.allowed call.line = some m)
    (hrule : m.rule = Catalog.header) :
    ∃ name, m.text? "name" = some name ∧
      (scanLine call.allowed call.line context).2.name = some name := by
  obtain ⟨rule, _, _, hmatch⟩ := exists_of_recognize hm
  rw [← rule_of_match? hmatch, hrule] at hmatch
  obtain ⟨name, rfl⟩ := eq_of_match?_header hmatch
  refine ⟨name, rfl, ?_⟩
  rw [scanLine, hm]
  rfl

theorem scanLine_miss (h : ¬ call.Hits) : (scanLine call.allowed call.line context).2 = context := by
  rw [scanLine]
  cases hm : recognize call.allowed call.line with
  | none => rfl
  | some m =>
    obtain ⟨rule, hrule, _, hmatch⟩ := exists_of_recognize hm
    rw [← rule_of_match? hmatch] at hrule
    exact if_neg fun hclass => h ⟨m, hm, eq_header_of_lineClass hrule hclass⟩

/-- One more line after a run. -/
theorem LatestName.step {calls : List ScanCall} {start : Option String}
    (h : LatestName calls start context.name) :
    LatestName (calls ++ [call]) start (scanLine call.allowed call.line context).2.name := by
  by_cases hhits : call.Hits
  · obtain ⟨m, hm, hrule⟩ := hhits
    obtain ⟨name, hname, hcontext⟩ := scanLine_hit context hm hrule
    rw [hcontext]
    exact .captured rfl hm hrule hname fun _ hlater => absurd hlater List.not_mem_nil
  · rw [scanLine_miss context hhits]
    generalize context.name = current at h
    have hlast : ∀ later ∈ [call], ¬ later.Hits := fun later hlater => by
      rwa [List.mem_singleton.mp hlater]
    cases h with
    | unchanged hnone => exact .unchanged (List.forall_mem_append.mpr ⟨hnone, hlast⟩)
    | @captured before after hit _ _ hcalls hm hrule hname hlater =>
      have hcalls' : calls ++ [call] = before ++ hit :: (after ++ [call]) := by
        rw [hcalls, List.append_assoc, List.cons_append]
      exact .captured hcalls' hm hrule hname (List.forall_mem_append.mpr ⟨hlater, hlast⟩)

end

theorem latestName_scanAll (calls : List ScanCall) (context : ScanContext) :
    LatestName calls context.name (scanAll calls context).name := by
  induction calls using List.reverseRecOn with
  | nil => exact .unchanged fun _ hcall => absurd hcall List.not_mem_nil
  | append_singleton calls call ih =>
    rw [scanAll, List.foldl_append]
    exact ih.step

/-- **Headers are recognised exactly and without memory.**  The names of a listing are those of its
header lines in order, and a line has one name only.  Read back from a shared context, the names are
the same whatever the context held; and after every run over lines, with any classes allowed for each
of them, the context has the name of the latest line that was taken for a header. -/
theorem headers_memoryless :
    (∀ listing names, policyNames listing = names ↔ Headers (Line.ofText listing) names) ∧
    (∀ listing, ∀ line ∈ Line.ofText listing, ∀ name other,
      OpensPolicy line name → OpensPolicy line other → name = other) ∧
    (∀ line context, (scanHeader line context).1 = headerName? line) ∧
    (∀ listing context, (scanHeaders (Line.ofText listing) context).1 = policyNames listing) ∧
    ∀ calls context, LatestName calls context.name (scanAll calls context).name := by
  refine ⟨fun listing names => policyNames_eq_iff, ?_, scanHeader_fst,
    fun listing => scanHeaders_fst _, latestName_scanAll⟩
  intro listing line hline name other hname hother
  have hnewline := Line.newline_not_mem_of_mem_ofText hline
  rw [← headerName?_eq_some_iff hnewline] at hname hother
  rw [hname] at hother
  exact Option.some.inj hother

/-- Two headers of `A` with an attachment between them, and a header that is none. -/
def repeatedHeaders : String :=
  "route-policy A($x) \n route-policy A in\nroute-policy\u3000 A\nroute-policy B(\n"

theorem headers_memoryless_repeated :
    "route-policy A($x) " ∈ Line.ofText repeatedHeaders ∧
    OpensPolicy "route-policy A($x) " "A" ∧
    (∀ other, OpensPolicy "route-policy A($x) " other → "A" = other) ∧
    (scanHeaders (Line.ofText repeatedHeaders) { name := some "B" }).1 = ["A", "A"] := by
  obtain ⟨_, hunique, _, hscan, _⟩ := headers_memoryless
  have hline : "route-policy A($x) " ∈ Line.ofText repeatedHeaders := by decide +kernel
  have hopens : OpensPolicy "route-policy A($x) " "A" :=
    opensPolicy_of_headerName? (by decide +kernel)
  refine ⟨hline, hopens, fun other => hunique repeatedHeaders _ hline "A" other hopens, ?_⟩
  rw [hscan]
  decide +kernel

end RoutePolicy
