import Offside.Batch
import Offside.Proofs.Fuel
import Offside.Proofs.Lines
import Offside.Proofs.Splitting

/-!
# Batches case by case

The cases of a batch stand on its lines, one on each line of the right form, and every case is run
in a session in which nothing has run before. So the results of a batch are what its cases give
each on its own, and the results of two batches one behind the other are those of the first and
those of the second.
-/

namespace Offside.Batch

variable {line body source expected : List Char}

/-! ## Fields -/

/-- There is one field more than there are commas. -/
theorem length_fields (cs : List Char) : (fields cs).length = cs.count ',' + 1 := by
  induction cs with
  | nil => rfl
  | cons c cs ih =>
    rw [fields, List.count_cons]
    split
    next hc => simp [hc, ih]
    next hc =>
      cases hfields : fields cs with
      | nil => simp [hfields] at ih
      | cons field others => simpa [hfields, hc] using ih

/-- Every line has a field, be it empty. -/
theorem fields_ne_nil (cs : List Char) : fields cs ≠ [] :=
  List.ne_nil_of_length_eq_add_one (length_fields cs)

/-- A comma separates the fields in front of it from the fields behind it. -/
theorem fields_append (cs rest : List Char) :
    fields (cs ++ ',' :: rest) = fields cs ++ fields rest := by
  induction cs with
  | nil => rfl
  | cons c cs ih =>
    rw [List.cons_append, fields, fields, ih]
    split
    · rfl
    · cases hfields : fields cs with
      | nil => exact absurd hfields (fields_ne_nil cs)
      | cons field others => rfl

/-- A line without a comma is one field. -/
theorem fields_of_notMem (h : ',' ∉ line) : fields line = [line] := by
  induction line with
  | nil => rfl
  | cons c cs ih =>
    obtain ⟨hc, hcs⟩ := List.ne_and_not_mem_of_not_mem_cons h
    rw [fields, if_neg (Ne.symm hc), ih hcs]

/-- The only comma of a line separates two fields. -/
theorem fields_of_count (h : (source ++ ',' :: expected).count ',' = 1) :
    fields (source ++ ',' :: expected) = [source, expected] := by
  rw [List.count_append, List.count_cons_self] at h
  have hsource : ',' ∉ source := List.count_eq_zero.mp (by omega)
  have hexpected : ',' ∉ expected := List.count_eq_zero.mp (by omega)
  rw [fields_append, fields_of_notMem hsource, fields_of_notMem hexpected]
  rfl

/-- A line has two fields exactly if it has one comma. -/
theorem fields_eq_pair_iff :
    fields line = [source, expected] ↔
      line = source ++ ',' :: expected ∧ line.count ',' = 1 := by
  constructor
  · intro h
    have hcount : line.count ',' = 1 :=
      Nat.succ_injective ((length_fields line).symm.trans (h ▸ rfl))
    have hmem : ',' ∈ line := List.count_pos_iff.mp (hcount ▸ Nat.one_pos)
    obtain ⟨front, rest, rfl, _⟩ := List.eq_append_cons_of_mem hmem
    rw [fields_of_count hcount] at h
    cases h
    exact ⟨rfl, hcount⟩
  · rintro ⟨rfl, hcount⟩
    exact fields_of_count hcount

/-! ## Fields in use -/

/-- Commas at the end of a line make no difference. -/
theorem usedFields_append_commas (line : List Char) (commas : Nat) :
    usedFields (line ++ List.replicate commas ',') = usedFields line := by
  induction commas with
  | zero => rw [List.replicate_zero, List.append_nil]
  | succ commas ih =>
    have hlast : fields (line ++ List.replicate commas ',' ++ [',']) =
        fields (line ++ List.replicate commas ',') ++ [[]] := fields_append ..
    rw [List.replicate_succ', ← List.append_assoc, usedFields, hlast, List.reverse_append]
    exact ih

/-- The last field of a line that does not end in a comma is not empty. -/
theorem exists_last_field (hne : body ≠ []) (hlast : body.getLast? ≠ some ',') :
    ∃ others field, fields body = others ++ [field] ∧ field ≠ [] := by
  induction body with
  | nil => exact absurd rfl hne
  | cons c cs ih =>
    cases cs with
    | nil =>
      have hc : c ≠ ',' := fun hc => hlast (congrArg some hc)
      exact ⟨[], [c], by simp [fields, hc], List.cons_ne_nil c []⟩
    | cons d cs =>
      obtain ⟨others, field, hfields, hfield⟩ :=
        ih (List.cons_ne_nil d cs) (by rwa [List.getLast?_cons_cons] at hlast)
      rw [fields, hfields]
      split
      · exact ⟨[] :: others, field, rfl, hfield⟩
      · cases others with
        | nil => exact ⟨[], c :: field, rfl, List.cons_ne_nil c field⟩
        | cons first others => exact ⟨(c :: first) :: others, field, rfl, hfield⟩

/-- All fields of a line that does not end in a comma are in use. -/
theorem usedFields_eq_fields (hne : body ≠ []) (hlast : body.getLast? ≠ some ',') :
    usedFields body = fields body := by
  obtain ⟨others, field, hfields, hfield⟩ := exists_last_field hne hlast
  rw [usedFields, hfields, List.reverse_append, List.reverse_singleton, List.singleton_append,
    List.dropWhile_cons_of_neg (by simpa using hfield), List.reverse_cons, List.reverse_reverse]

/-- A line is what does not end in a comma, and commas. -/
theorem exists_body (line : List Char) :
    ∃ body commas, line = body ++ List.replicate commas ',' ∧ body.getLast? ≠ some ',' := by
  induction line using List.reverseRecOn with
  | nil => exact ⟨[], 0, rfl, by simp⟩
  | append_singleton cs c ih =>
    by_cases hc : c = ','
    · obtain ⟨body, commas, rfl, hlast⟩ := ih
      refine ⟨body, commas + 1, ?_, hlast⟩
      rw [hc, List.replicate_succ', List.append_assoc]
    · exact ⟨cs ++ [c], 0, by simp, by simpa using hc⟩

/-! ## The cases of a text -/

/-- The case that stands on a line. Once the commas at the end of the line are removed there is
exactly one comma left, and what is on its two sides is trimmed. -/
def Case.StandsOn (c : Case) (line : List Char) : Prop :=
  ∃ body commas source expected, line = body ++ List.replicate commas ',' ∧
    body.getLast? ≠ some ',' ∧ body.count ',' = 1 ∧ body = source ++ ',' :: expected ∧
    Text.IsTrimmed source c.source.toList ∧ Text.IsTrimmed expected c.expected.toList

/-- The computed case is the one that stands on the line. -/
theorem case?_eq_some_iff {c : Case} : case? line = some c ↔ c.StandsOn line := by
  constructor
  · intro h
    obtain ⟨body, commas, rfl, hlast⟩ := exists_body line
    rw [case?, usedFields_append_commas] at h
    rcases eq_or_ne body [] with rfl | hne
    · cases h
    rw [usedFields_eq_fields hne hlast] at h
    split at h
    next source expected hfields =>
      obtain ⟨hbody, hcount⟩ := fields_eq_pair_iff.mp hfields
      obtain rfl := Option.some.inj h
      refine ⟨body, commas, source, expected, rfl, hlast, hcount, hbody, ?_, ?_⟩
      · simpa using Text.isTrimmed_trim source
      · simpa using Text.isTrimmed_trim expected
    next => cases h
  · rintro ⟨body, commas, source, expected, rfl, hlast, hcount, hbody, hsource, hexpected⟩
    have hne : body ≠ [] := by
      rintro rfl
      cases hcount
    rw [case?, usedFields_append_commas, usedFields_eq_fields hne hlast,
      fields_eq_pair_iff.mpr ⟨hbody, hcount⟩]
    simp only [← hsource.eq_trim, ← hexpected.eq_trim, String.ofList_toList]

/-- Blanks are no empty field. -/
example : case? "x = 5, \t,,".toList = some ⟨"x = 5", ""⟩ := by decide +kernel

/-- The cases that stand on some lines, in order. Other lines are skipped. -/
inductive StandOn : List (List Char) → List Case → Prop
  | nil : StandOn [] []
  | take {line : List Char} {lines : List (List Char)} {c : Case} {cs : List Case} :
    c.StandsOn line → StandOn lines cs → StandOn (line :: lines) (c :: cs)
  | skip {line : List Char} {lines : List (List Char)} {cs : List Case} :
    (∀ c : Case, ¬ c.StandsOn line) → StandOn lines cs → StandOn (line :: lines) cs

/-- The computed cases are those that stand on the lines. -/
theorem standOn_iff {lines : List (List Char)} {cs : List Case} :
    StandOn lines cs ↔ cs = lines.filterMap case? := by
  constructor
  · intro h
    induction h with
    | nil => rfl
    | take hline _ ih => rw [List.filterMap_cons_some (case?_eq_some_iff.mpr hline), ih]
    | skip hline _ ih =>
      rw [List.filterMap_cons_none, ih]
      exact Option.eq_none_iff_forall_ne_some.mpr fun c hc => hline c (case?_eq_some_iff.mp hc)
  · rintro rfl
    induction lines with
    | nil => exact .nil
    | cons line lines ih =>
      cases hcase : case? line with
      | none =>
        rw [List.filterMap_cons_none hcase]
        refine .skip (fun c hc => ?_) ih
        rw [case?_eq_some_iff.mpr hc] at hcase
        cases hcase
      | some c =>
        rw [List.filterMap_cons_some hcase]
        exact .take (case?_eq_some_iff.mp hcase) ih

/-- The cases that stand on the lines of a text. -/
def AreCases (text : String) (cs : List Case) : Prop :=
  ∃ lines, Text.IsLines text.toList lines ∧ StandOn lines cs

/-- The computed cases are the cases. -/
theorem areCases_iff {text : String} {cs : List Case} : AreCases text cs ↔ cs = cases text := by
  simp only [AreCases, Text.isLines_iff, standOn_iff, exists_eq_left]
  rfl

/-- The cases of a text that is empty or ends with a line feed come in front of the cases of what
follows. -/
theorem cases_append {before : String} (hend : before = "" ∨ before.toList.getLast? = some '\n')
    (after : String) : cases (before ++ after) = cases before ++ cases after := by
  have hend' : before.toList = [] ∨ before.toList.getLast? = some '\n' := by
    refine hend.imp (fun hempty => ?_) id
    rw [hempty]
    rfl
  have hlines := (Text.isLines_lines before.toList).append hend' (Text.isLines_lines after.toList)
  rw [cases, String.toList_append, ← hlines.eq_lines, List.filterMap_append]
  rfl

/-! ## One case -/

section Runs

variable {fuel fuel' depthLimit : Nat} {source text text' : String}

/-- A source that comes to an end in a session in which nothing has run before. -/
def Terminates (depthLimit : Nat) (source : String) : Prop :=
  ∃ fuel r, (Session.new depthLimit {}).run fuel source = some r

/-- What counts as printed by a source that is run in a session in which nothing has run before: its
output, trimmed, or a message if it cannot be run. -/
def Prints (depthLimit : Nat) (source text : String) : Prop :=
  ∃ fuel outcome session,
    (Session.new depthLimit {}).run fuel source = some (outcome, session) ∧
      text = if outcome.status = .staticError then
          "Error scanning/parsing the expression: " ++ source
        else Text.trimString (session.textFrom 0)

/-- What a case prints is decided by the outcome and the output of its run. -/
theorem actual_of_run {outcome : Outcome} {session : Session}
    (h : (Session.new depthLimit {}).run fuel source = some (outcome, session)) :
    actual fuel depthLimit source =
      some (if outcome.status = .staticError then
          "Error scanning/parsing the expression: " ++ source
        else Text.trimString (session.textFrom 0)) := by
  by_cases hstatus : outcome.status = .staticError <;> simp [actual, runAlone, h, hstatus]

/-- A case prints something only if its run comes to an end. -/
theorem exists_run_of_actual (h : actual fuel depthLimit source = some text) :
    ∃ r, (Session.new depthLimit {}).run fuel source = some r := by
  cases hrun : (Session.new depthLimit {}).run fuel source with
  | none => simp [actual, runAlone, hrun] at h
  | some r => exact ⟨r, rfl⟩

/-- A source prints what is computed with enough fuel. -/
theorem prints_iff : Prints depthLimit source text ↔
    ∃ fuel, actual fuel depthLimit source = some text := by
  constructor
  · rintro ⟨fuel, outcome, session, hrun, rfl⟩
    exact ⟨fuel, actual_of_run hrun⟩
  · rintro ⟨fuel, h⟩
    obtain ⟨⟨outcome, session⟩, hrun⟩ := exists_run_of_actual h
    exact ⟨fuel, outcome, session, hrun, Option.some.inj (h.symm.trans (actual_of_run hrun))⟩

/-- A source that comes to an end prints something. -/
theorem Terminates.exists_prints (h : Terminates depthLimit source) :
    ∃ text, Prints depthLimit source text := by
  obtain ⟨fuel, ⟨outcome, session⟩, hrun⟩ := h
  exact ⟨_, fuel, outcome, session, hrun, rfl⟩

/-- A short source without lexical and syntax errors comes to an end if a computed run does. -/
theorem terminates_of_checkUpTo (fuel : Nat) {n : Nat} (hlength : source.toList.length ≤ n)
    (hclean : (checkUpTo n source).diagnostics = [])
    (h : (Session.conclude (runProgram fuel (checkUpTo n source).program
      (Session.new depthLimit {}).start)).isSome) : Terminates depthLimit source := by
  obtain ⟨r, hend⟩ := Option.isSome_iff_exists.mp h
  exact ⟨fuel, r, (Session.run_of_checkUpTo hlength hclean fuel _).trans hend⟩

/-- A source prints one thing only. -/
theorem Prints.unique (h : Prints depthLimit source text) (h' : Prints depthLimit source text') :
    text = text' := by
  obtain ⟨fuel, outcome, session, hrun, rfl⟩ := h
  obtain ⟨fuel', outcome', session', hrun', rfl⟩ := h'
  cases Session.run_unique hrun hrun'
  rfl

/-- More fuel does not change what a source prints. -/
theorem actual_of_le (hle : fuel ≤ fuel') (h : actual fuel depthLimit source = some text) :
    actual fuel' depthLimit source = some text := by
  obtain ⟨⟨outcome, session⟩, hrun⟩ := exists_run_of_actual h
  rw [← h, actual_of_run hrun, actual_of_run (Session.run_of_le hle hrun)]

/-! ## All cases -/

/-- The results of some cases are those cases with what they print. -/
theorem mapM_run_eq_some_iff {cs : List Case} {results : List Result} :
    cs.mapM (Case.run fuel depthLimit) = some results ↔
      results.map Result.case = cs ∧
        ∀ r ∈ results, actual fuel depthLimit r.case.source = some r.actual := by
  induction cs generalizing results with
  | nil =>
    rw [List.mapM_nil, List.map_eq_nil_iff]
    constructor
    · intro h
      obtain rfl : [] = results := Option.some.inj h
      exact ⟨rfl, List.forall_mem_nil _⟩
    · rintro ⟨rfl, _⟩
      rfl
  | cons c cs ih =>
    rw [List.mapM_cons]
    constructor
    · intro h
      obtain ⟨r, hr, h⟩ := Option.bind_eq_some_iff.mp h
      obtain ⟨rest, hrest, h⟩ := Option.bind_eq_some_iff.mp h
      obtain ⟨text, htext, hr⟩ := Option.bind_eq_some_iff.mp hr
      obtain rfl := Option.some.inj hr
      obtain rfl := Option.some.inj h
      obtain ⟨rfl, hall⟩ := ih.mp hrest
      exact ⟨rfl, List.forall_mem_cons.mpr ⟨htext, hall⟩⟩
    · rintro ⟨hcases, hall⟩
      cases results with
      | nil => cases hcases
      | cons r rest =>
        obtain ⟨rfl, hrest⟩ := List.cons.inj hcases
        obtain ⟨hr, hothers⟩ := List.forall_mem_cons.mp hall
        simp [Case.run, hr, ih.mpr ⟨hrest, hothers⟩]

/-- Some fuel is enough for all results together. -/
theorem exists_fuel {results : List Result}
    (h : ∀ r ∈ results, Prints depthLimit r.case.source r.actual) :
    ∃ fuel, ∀ r ∈ results, actual fuel depthLimit r.case.source = some r.actual := by
  induction results with
  | nil => exact ⟨0, List.forall_mem_nil _⟩
  | cons r rest ih =>
    obtain ⟨hr, hrest⟩ := List.forall_mem_cons.mp h
    obtain ⟨fuel, htext⟩ := prints_iff.mp hr
    obtain ⟨fuel', hothers⟩ := ih hrest
    refine ⟨max fuel fuel', List.forall_mem_cons.mpr ⟨?_, fun r' hr' => ?_⟩⟩
    · exact actual_of_le (Nat.le_max_left ..) htext
    · exact actual_of_le (Nat.le_max_right ..) (hothers r' hr')

/-- What the cases of a text come to, if all of them come to an end. -/
def Gives (depthLimit : Nat) (text : String) (results : List Result) : Prop :=
  ∃ fuel, run fuel depthLimit text = some results

/-- The results of a text are its cases, each with what it prints on its own. -/
theorem gives_iff {results : List Result} :
    Gives depthLimit text results ↔
      results.map Result.case = cases text ∧
        ∀ r ∈ results, Prints depthLimit r.case.source r.actual := by
  constructor
  · rintro ⟨fuel, h⟩
    obtain ⟨hcases, hall⟩ := mapM_run_eq_some_iff.mp h
    exact ⟨hcases, fun r hr => prints_iff.mpr ⟨fuel, hall r hr⟩⟩
  · rintro ⟨hcases, hall⟩
    obtain ⟨fuel, hfuel⟩ := exists_fuel hall
    exact ⟨fuel, mapM_run_eq_some_iff.mpr ⟨hcases, hfuel⟩⟩

/-- More fuel does not change the results of a batch. -/
theorem run_of_le {results : List Result} (hle : fuel ≤ fuel')
    (h : run fuel depthLimit text = some results) : run fuel' depthLimit text = some results := by
  obtain ⟨hcases, hall⟩ := mapM_run_eq_some_iff.mp h
  exact mapM_run_eq_some_iff.mpr ⟨hcases, fun r hr => actual_of_le hle (hall r hr)⟩

/-- A text gives its results only. -/
theorem Gives.unique {results results' : List Result} (h : Gives depthLimit text results)
    (h' : Gives depthLimit text results') : results = results' := by
  obtain ⟨fuel, hrun⟩ := h
  obtain ⟨fuel', hrun'⟩ := h'
  have hmore := run_of_le (Nat.le_max_left fuel fuel') hrun
  have hmore' := run_of_le (Nat.le_max_right fuel fuel') hrun'
  exact Option.some.inj (hmore.symm.trans hmore')

/-- If all cases of a text come to an end, it gives results. -/
theorem exists_gives (h : ∀ c ∈ cases text, Terminates depthLimit c.source) :
    ∃ results, Gives depthLimit text results := by
  simp only [gives_iff]
  generalize cases text = cs at h
  induction cs with
  | nil => exact ⟨[], rfl, List.forall_mem_nil _⟩
  | cons c cs ih =>
    obtain ⟨hc, hcs⟩ := List.forall_mem_cons.mp h
    obtain ⟨text, hprints⟩ := hc.exists_prints
    obtain ⟨results, hcases, hall⟩ := ih hcs
    exact ⟨⟨c, text⟩ :: results, congrArg (c :: ·) hcases, List.forall_mem_cons.mpr ⟨hprints, hall⟩⟩

/-- Two texts one behind the other give the results of the first and those of the second. -/
theorem gives_append {before : String} (hend : before = "" ∨ before.toList.getLast? = some '\n')
    (after : String) {results : List Result} :
    Gives depthLimit (before ++ after) results ↔
      ∃ first second, Gives depthLimit before first ∧ Gives depthLimit after second ∧
        results = first ++ second := by
  simp only [gives_iff, cases_append hend]
  constructor
  · rintro ⟨hcases, hall⟩
    obtain ⟨first, second, rfl, hfirst, hsecond⟩ := List.map_eq_append_iff.mp hcases
    obtain ⟨hall, hall'⟩ := List.forall_mem_append.mp hall
    exact ⟨first, second, ⟨hfirst, hall⟩, ⟨hsecond, hall'⟩, rfl⟩
  · rintro ⟨first, second, ⟨hfirst, hall⟩, ⟨hsecond, hall'⟩, rfl⟩
    exact ⟨by rw [List.map_append, hfirst, hsecond], List.forall_mem_append.mpr ⟨hall, hall'⟩⟩

/-- A result passes if its source prints what it is expected to. -/
theorem passed_iff {r : Result} (h : Prints depthLimit r.case.source r.actual) :
    r.passed ↔ Prints depthLimit r.case.source r.case.expected := by
  rw [Result.passed, beq_iff_eq]
  constructor
  · intro heq
    rwa [← heq]
  · exact h.unique

/-- The results of a text all of whose cases come to an end are, in order, those of the cases that
stand on its lines, and each of them is what the case gives in a session of its own. Behind a text
that is empty or ends with a line feed, another text gives the results that it gives alone. -/
theorem run_caseByCase (depthLimit : Nat) :
    (∀ text, (∀ cs, AreCases text cs → ∀ c ∈ cs, Terminates depthLimit c.source) →
      ∃ results, (∀ found, Gives depthLimit text found ↔ found = results) ∧
        (∀ cs, AreCases text cs ↔ cs = results.map Result.case) ∧
        ∀ r ∈ results, Prints depthLimit r.case.source r.actual ∧
          (r.passed ↔ Prints depthLimit r.case.source r.case.expected)) ∧
      ∀ before after : String, before = "" ∨ before.toList.getLast? = some '\n' →
        ∀ results, Gives depthLimit (before ++ after) results ↔
          ∃ first second, Gives depthLimit before first ∧ Gives depthLimit after second ∧
            results = first ++ second ∧
            passedCount results = passedCount first + passedCount second ∧
            results.length = first.length + second.length := by
  constructor
  · intro text hterminates
    obtain ⟨results, hgives⟩ := exists_gives (hterminates _ (areCases_iff.mpr rfl))
    obtain ⟨hcases, hall⟩ := gives_iff.mp hgives
    refine ⟨results, fun found => ⟨fun h => h.unique hgives, fun h => h ▸ hgives⟩, fun cs => ?_,
      fun r hr => ⟨hall r hr, passed_iff (hall r hr)⟩⟩
    rw [areCases_iff, hcases]
  · intro before after hend results
    rw [gives_append hend after]
    constructor
    · rintro ⟨first, second, hfirst, hsecond, rfl⟩
      exact ⟨first, second, hfirst, hsecond, rfl, List.countP_append, List.length_append⟩
    · rintro ⟨first, second, hfirst, hsecond, rfl, _⟩
      exact ⟨first, second, hfirst, hsecond, rfl⟩

end Runs

/-- A case that binds a name, and another one that asks for it. -/
def boundElsewhere : String := "x = 5, \nprint(x), 5\r\n"

/-- The name that the first case binds is unknown to the second one, and each line alone gives the
result that it gives in the batch. -/
theorem run_caseByCase_boundElsewhere :
    (∀ cs, AreCases boundElsewhere cs → ∀ c ∈ cs, Terminates 10 c.source) ∧
      ∃ results, Gives 10 boundElsewhere results ∧
        results.map Result.case = [⟨"x = 5", ""⟩, ⟨"print(x)", "5"⟩] ∧
        ∃ first second, Gives 10 "x = 5, \n" first ∧ Gives 10 "print(x), 5\r\n" second ∧
          results = first ++ second := by
  have hcases : cases boundElsewhere = [⟨"x = 5", ""⟩, ⟨"print(x)", "5"⟩] := by decide +kernel
  have hterminates : ∀ cs, AreCases boundElsewhere cs → ∀ c ∈ cs, Terminates 10 c.source := by
    intro cs hcs c hc
    rw [areCases_iff.mp hcs, hcases] at hc
    rcases List.mem_pair.mp hc with rfl | rfl <;>
      exact terminates_of_checkUpTo 9 (n := 10) (by decide +kernel) (by decide +kernel)
        (by decide +kernel)
  obtain ⟨hresults, hsplit⟩ := run_caseByCase 10
  obtain ⟨results, hgives, hlisted, _⟩ := hresults boundElsewhere hterminates
  have hall : Gives 10 boundElsewhere results := (hgives results).mpr rfl
  have hend : "x = 5, \n".toList.getLast? = some '\n' := by decide +kernel
  obtain ⟨first, second, hfirst, hsecond, happend, _⟩ :=
    (hsplit "x = 5, \n" "print(x), 5\r\n" (.inr hend) results).mp hall
  have hcase : results.map Result.case = cases boundElsewhere :=
    ((hlisted _).mp (areCases_iff.mpr rfl)).symm
  exact ⟨hterminates, results, hall, hcase.trans hcases, first, second, hfirst, hsecond, happend⟩

end Offside.Batch
