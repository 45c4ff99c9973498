import AutomationScript.Proofs.Document.Merge
import AutomationScript.Proofs.Grammar.Chars
import AutomationScript.Proofs.Lowering.Capture
import AutomationScript.Proofs.Pipeline.Flat
import AutomationScript.Proofs.Pipeline.Unlocated
import AutomationScript.Registry.Builtin

/-!
# Compiling one script after another

Two scripts that compile and have no definition in common compile one after the other, and the
document of both is their documents merged.  Blocks are closed at the end of a script
(`Blocks.flatten_append`), and a definition cannot capture a name of the other script, since every
name that is left after definitions are expanded is reserved (`isReserved_of_mentioned`).  The line
break between the scripts has to end a statement, which it does not after a wildcard.
-/

namespace AutomationScript

variable {registry : Registry} {front back first second : List Stmt}

/-! ## Steps -/

theorem Blocks.flatten_append {blocks : List Expr} (frontRan : flatten blocks front = .ok first)
    (backRan : flatten [] back = .ok second) :
    flatten blocks (front ++ back) = .ok (first ++ second) := by
  induction front generalizing blocks first with
  | nil =>
    cases blocks with
    | nil =>
      cases frontRan
      exact backRan
    | cons block outer => cases frontRan
  | cons s rest ih =>
    cases s with
    | openBlock condition tag => exact ih frontRan
    | closeBlock tag =>
      cases blocks with
      | nil => cases frontRan
      | cons block outer => exact ih frontRan
    | assign target value condition tag =>
      obtain ⟨others, restRan, rfl⟩ := bind_pure_eq_ok_iff.mp frontRan
      exact bind_pure_eq_ok_iff.mpr ⟨others ++ second, ih restRan, rfl⟩
    | trigger condition actions tag =>
      cases blocks with
      | nil =>
        obtain ⟨others, restRan, rfl⟩ := bind_pure_eq_ok_iff.mp frontRan
        exact bind_pure_eq_ok_iff.mpr ⟨others ++ second, ih restRan, rfl⟩
      | cons block outer => cases frontRan
    | _ => cases frontRan

theorem Types.checkAll_append (frontRan : checkAll registry front = .ok ())
    (backRan : checkAll registry back = .ok ()) : checkAll registry (front ++ back) = .ok () := by
  induction front with
  | nil => exact backRan
  | cons s rest ih =>
    obtain ⟨_, checked, restRan⟩ := bind_eq_ok_iff.mp frontRan
    exact bind_eq_ok_iff.mpr ⟨(), checked, ih restRan⟩

namespace Stage

/-- Every step but the first lowers two programs together as it lowers them apart. -/
theorem run_append {stage : Stage} (later : stage ≠ .definitions)
    (frontRan : stage.run registry front = .ok first)
    (backRan : stage.run registry back = .ok second) :
    stage.run registry (front ++ back) = .ok (first ++ second) := by
  cases stage with
  | definitions => exact absurd rfl later
  | blocks => exact Blocks.flatten_append frontRan backRan
  | types =>
    obtain ⟨_, frontChecked, rfl⟩ := bind_pure_eq_ok_iff.mp frontRan
    obtain ⟨_, backChecked, rfl⟩ := bind_pure_eq_ok_iff.mp backRan
    have checked := Types.checkAll_append frontChecked backChecked
    exact bind_pure_eq_ok_iff.mpr ⟨(), checked, rfl⟩
  | _ => exact lowerEach_append_eq_ok_iff.mpr ⟨first, second, frontRan, backRan, rfl⟩

theorem runChecked_append {stage : Stage}
    (together : stage.run registry (front ++ back) = .ok (first ++ second))
    (frontRan : stage.runChecked registry front = .ok first)
    (backRan : stage.runChecked registry back = .ok second) :
    stage.runChecked registry (front ++ back) = .ok (first ++ second) := by
  have firstClear := (runChecked_eq_ok_iff.mp frontRan).2
  have secondClear := (runChecked_eq_ok_iff.mp backRan).2
  refine runChecked_eq_ok_iff.mpr ⟨together, ?_⟩
  rw [hasLeftover_append, firstClear, secondClear]
  rfl

end Stage

theorem lowerThrough_programs {stages : List Stage} (later : .definitions ∉ stages)
    (frontRan : lowerThrough registry stages front = .ok first)
    (backRan : lowerThrough registry stages back = .ok second) :
    lowerThrough registry stages (front ++ back) = .ok (first ++ second) := by
  induction stages generalizing front back with
  | nil =>
    cases frontRan
    cases backRan
    rfl
  | cons stage rest ih =>
    obtain ⟨middle, stepRan, restRan⟩ := bind_eq_ok_iff.mp frontRan
    obtain ⟨middleBack, stepRanBack, restRanBack⟩ := bind_eq_ok_iff.mp backRan
    have notFirst : stage ≠ .definitions := fun same => later (same ▸ List.mem_cons_self)
    have together := Stage.run_append notFirst (runChecked_eq_ok_iff.mp stepRan).1
      (runChecked_eq_ok_iff.mp stepRanBack).1
    have restLater : .definitions ∉ rest := fun found => later (List.mem_cons_of_mem _ found)
    exact bind_eq_ok_iff.mpr
      ⟨_, Stage.runChecked_append together stepRan stepRanBack, ih restLater restRan restRanBack⟩

/-! ## Programs -/

/-- A name that is mentioned once definitions are expanded is reserved, if the program can be
lowered further. -/
theorem isReserved_of_mentioned (noEmpty : registry.NoEmptyFamily) {program lowered : List Stmt}
    {stages : List Stage} (solid : ∀ s ∈ program, s.isVoid = false)
    (ran : lowerThrough registry (.wildcards :: .lists :: .placeholders :: .aliases :: stages)
      program = .ok lowered)
    {name : String} (mentioned : Mentioned name program) : registry.isReserved name = true := by
  obtain ⟨afterWildcards, wildcardsRan, continued⟩ := bind_eq_ok_iff.mp ran
  obtain ⟨afterLists, listsRan, continued⟩ := bind_eq_ok_iff.mp continued
  obtain ⟨afterPlaceholders, placeholdersRan, continued⟩ := bind_eq_ok_iff.mp continued
  obtain ⟨afterAliases, aliasesRan, _⟩ := bind_eq_ok_iff.mp continued
  have expanded := (runChecked_eq_ok_iff.mp wildcardsRan).1
  have known : (registry.other? name).isSome := by
    apply Alias.isSome_other?_of_mentioned _ (runChecked_eq_ok_iff.mp aliasesRan).1
    apply Placeholder.mentioned_lower _ (runChecked_eq_ok_iff.mp placeholdersRan).1
    apply Lists.mentioned_lower _ _ (runChecked_eq_ok_iff.mp listsRan).1
    · exact Wildcard.not_isVoid_lower noEmpty solid expanded
    · exact Wildcard.mentioned_lower mentioned expanded
  rw [Registry.isReserved, Table.contains_eq_isSome_get? registry.others]
  rw [Registry.other?] at known
  rw [known, Bool.or_true]

/-- Two programs are lowered together as they are lowered apart. -/
theorem lowerProgram_append (noEmpty : registry.NoEmptyFamily)
    (solid : ∀ s ∈ front ++ back, s.isVoid = false)
    (apart : ∀ name ∈ definedNames front, name ∉ definedNames back)
    (frontRan : lowerProgram registry front = .ok first)
    (backRan : lowerProgram registry back = .ok second) :
    lowerProgram registry (front ++ back) = .ok (first ++ second) := by
  obtain ⟨frontSolid, backSolid⟩ := List.forall_mem_append.mp solid
  obtain ⟨expanded, expandedRan, restRan⟩ := bind_eq_ok_iff.mp frontRan
  obtain ⟨expandedBack, expandedBackRan, restRanBack⟩ := bind_eq_ok_iff.mp backRan
  have expandedBy := (runChecked_eq_ok_iff.mp expandedRan).1
  have expandedBackBy := (runChecked_eq_ok_iff.mp expandedBackRan).1
  have reserved : ∀ name, Mentioned name (expanded ++ expandedBack) →
      registry.isReserved name = true := by
    rintro name ⟨s, member, hasPart⟩
    rcases List.mem_append.mp member with inFront | inBack
    · have expandedSolid := Definition.not_isVoid_lower frontSolid expandedBy
      exact isReserved_of_mentioned noEmpty expandedSolid restRan ⟨s, inFront, hasPart⟩
    · have expandedSolid := Definition.not_isVoid_lower backSolid expandedBackBy
      exact isReserved_of_mentioned noEmpty expandedSolid restRanBack ⟨s, inBack, hasPart⟩
  have together := Definition.lower_append apart expandedBy expandedBackBy reserved
  have later : Stage.definitions ∉
      [Stage.wildcards, .lists, .placeholders, .aliases, .families, .blocks, .conditions, .types,
        .chains] := by
    decide
  exact bind_eq_ok_iff.mpr ⟨_, Stage.runChecked_append together expandedRan expandedBackRan,
    lowerThrough_programs later restRan restRanBack⟩

/-! ## Scripts -/

/-- Two scripts that compile and define no name in common compile one after the other, if the line
break between them ends a statement, and the document of both is their documents merged. -/
theorem compile_append
    (noEmpty : registry.NoEmptyFamily) {first second : String} {d e : Document}
    (joinable : Joinable first second)
    (apart : ∀ name ∈ definedNames (parse first).1, name ∉ definedNames (parse second).1)
    (compiled : compile registry first = .ok d) (compiledMore : compile registry second = .ok e) :
    compile registry (first ++ "\n" ++ second) = .ok (d.merge e) := by
  obtain ⟨program, lowered, parsed, ran, emitted⟩ := compile_eq_ok_iff.mp compiled
  obtain ⟨more, loweredMore, parsedMore, ranMore, emittedMore⟩ := compile_eq_ok_iff.mp compiledMore
  obtain ⟨whole, agree, parsedWhole⟩ := exists_parse_append joinable parsed parsedMore
  rw [parsed, parsedMore] at apart
  have solid : ∀ s ∈ program ++ more, s.isVoid = false := by
    simpa only [List.any_eq_false, Bool.not_eq_true] using agree.solid
  have loweredBoth := lowerProgram_append noEmpty solid apart ran ranMore
  have emittedBoth := emit_append emitted emittedMore
  have both := compileProgram_eq_ok_iff.mpr ⟨_, loweredBoth, emittedBoth⟩
  -- Behind the seam everything stands elsewhere, and that makes no difference to the document.
  rw [← compileProgram_unlocated, agree.same, compileProgram_unlocated] at both
  rw [compile, parsedWhole]
  exact both

theorem Registry.noEmptyFamily_builtin : Registry.builtin.NoEmptyFamily := by
  intro name family found
  have each : ∀ family ∈ Registry.builtin.families.values, family.suffixes ≠ [] := by
    decide +kernel
  exact each family (Table.mem_values_of_get? found)

/-- A script that does not end in a wildcard can stand before any other. -/
theorem joinable_of_getLast?_ne {first : String} (noFault : faultsOf (pieces 0 first.toList) = [])
    (noStar : (scriptTokens first.toList).getLast? ≠ some .star) (second : String) :
    Joinable first second := by
  intro isStar
  rw [tokensIn_eq (faultsOf_eq_nil_iff.mp noFault)] at isStar
  exact absurd isStar noStar

/-- The second script replaces a value, adds rules for an old and a new setting and a trigger, and
defines another name than the first. -/
theorem compile_append_valuesRulesTriggers :
    ∃ d e,
      compile Registry.builtin
        ("def Rich = Citizens > 5\nautoJobs = ON\nSell.Coal = ON if Rich\n" ++
          "Build city-bank when Built city-mill") = .ok d ∧
      compile Registry.builtin ("Sell[Coal, Iron] = OFF if Poor\ndef Poor = Starving\n" ++
        "autoJobs = OFF; Build city-bank when Built city-mill") = .ok e ∧
      compile Registry.builtin
        (("def Rich = Citizens > 5\nautoJobs = ON\nSell.Coal = ON if Rich\n" ++
          "Build city-bank when Built city-mill") ++ "\n" ++
        ("Sell[Coal, Iron] = OFF if Poor\ndef Poor = Starving\n" ++
          "autoJobs = OFF; Build city-bank when Built city-mill")) = .ok (d.merge e) ∧
      (d.merge e).settings.entries = [("autoJobs", .boolean false)] ∧
      (d.merge e).overrides.entries.map (fun entry => (entry.1, entry.2.map Rule.ret)) =
        [("sellCoal", [.boolean true, .boolean false]), ("sellIron", [.boolean false])] ∧
      (d.merge e).triggers.map Trigger.seq = [0, 1] := by
  generalize isFirst : "def Rich = Citizens > 5\nautoJobs = ON\nSell.Coal = ON if Rich\n" ++
    "Build city-bank when Built city-mill" = first
  generalize isSecond : "Sell[Coal, Iron] = OFF if Poor\ndef Poor = Starving\n" ++
    "autoJobs = OFF; Build city-bank when Built city-mill" = second
  generalize compiled : compile Registry.builtin first = outcome
  generalize compiledMore : compile Registry.builtin second = outcomeMore
  have content : (outcome.toOption.bind fun d => outcomeMore.toOption.map fun e =>
      ((d.merge e).settings.entries,
        (d.merge e).overrides.entries.map (fun entry => (entry.1, entry.2.map Rule.ret)),
        (d.merge e).triggers.map Trigger.seq)) =
      some ([("autoJobs", .boolean false)],
        [("sellCoal", [.boolean true, .boolean false]), ("sellIron", [.boolean false])],
        [0, 1]) := by
    rw [← compiled, ← compiledMore, compile, compile, ← isFirst, ← isSecond]
    simp only [parse_eq_parseChars, String.toList_append]
    decide +kernel
  have apart : ∀ name ∈ definedNames (parse first).1, name ∉ definedNames (parse second).1 := by
    rw [← isFirst, ← isSecond]
    simp only [parse_eq_parseChars, String.toList_append]
    decide +kernel
  have joinable : Joinable first second := by
    rw [← isFirst]
    apply joinable_of_getLast?_ne
    all_goals
      rw [String.toList_append]
      decide +kernel
  cases outcome with
  | error failure => cases content
  | ok d =>
      cases outcomeMore with
      | error failure => cases content
      | ok e =>
          have parts := Prod.mk.inj (Option.some.inj content)
          have overridesTriggers := Prod.mk.inj parts.2
          have appended :=
            compile_append Registry.noEmptyFamily_builtin joinable apart compiled compiledMore
          exact ⟨d, e, rfl, rfl, appended, parts.1, overridesTriggers.1, overridesTriggers.2⟩

/-- A line break after a wildcard ends no statement: two scripts that compile and have no definition
in common are refused one after the other. -/
theorem compile_append_fails_afterWildcard :
    Registry.builtin.NoEmptyFamily ∧
      (∀ name ∈ definedNames (parse "def M = Sell.*").1,
        name ∉ definedNames (parse "autoJobs = ON").1) ∧
      (compile Registry.builtin "def M = Sell.*").toOption.isSome ∧
      (compile Registry.builtin "autoJobs = ON").toOption.isSome ∧
      compile Registry.builtin ("def M = Sell.*" ++ "\n" ++ "autoJobs = ON") =
        .error (.refused [⟨.grammar (.expectedTerminator (.ident "autoJobs")),
          some ⟨⟨2, 1⟩, ⟨2, 9⟩⟩⟩]) := by
  refine ⟨Registry.noEmptyFamily_builtin, ?_, ?_, ?_, ?_⟩
  · rw [parse_eq_parseChars, parse_eq_parseChars]
    decide +kernel
  · rw [compile, parse_eq_parseChars]
    decide +kernel
  · rw [compile, parse_eq_parseChars]
    decide +kernel
  · have refused : (parse ("def M = Sell.*" ++ "\n" ++ "autoJobs = ON")).2 =
        [⟨.grammar (.expectedTerminator (.ident "autoJobs")), some ⟨⟨2, 1⟩, ⟨2, 9⟩⟩⟩] := by
      rw [parse_eq_parseChars, String.toList_append, String.toList_append]
      decide +kernel
    rw [compile]
    generalize parse ("def M = Sell.*" ++ "\n" ++ "autoJobs = ON") = read at refused
    obtain ⟨program, errors⟩ := read
    dsimp only at refused
    rw [refused]

end AutomationScript
