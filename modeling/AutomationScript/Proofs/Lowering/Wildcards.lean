import AutomationScript.Proofs.Lowering.Descents

/-!
# Forms after wildcards are expanded

Expanding the wildcards of a program leaves none.  The names that come in their place are suffixes
of families.
-/

namespace AutomationScript

def Forms.withoutWildcards (f : Forms) : Forms :=
  { f with wildcards := False }

/-- What wildcards stand for is among the forms: lists, and the suffixes of families as names. -/
structure Forms.HasSuffixes (f : Forms) (registry : Registry) : Prop where
  lists : f.lists
  names : ∀ base family, registry.family? base = some family →
    ∀ suffix ∈ family.suffixes, f.isName suffix

namespace Wildcard

variable {f : Forms} {registry : Registry}

theorem yields_suffixes (hasSuffixes : f.HasSuffixes registry) (base : Ident)
    (loc : Option Location) :
    Yields (fun values => ∀ value ∈ values, value.Written f.withoutWildcards)
      (suffixes registry base loc) := by
  unfold suffixes
  cases found : registry.family? base.name with
  | none => exact Yields.of_refuse _ _
  | some family =>
    intro value member
    obtain ⟨suffix, isSuffix, rfl⟩ := List.mem_map.mp member
    exact .ident _ _ (hasSuffixes.names base.name family found suffix isSuffix)

theorem becomes_expandElements (hasSuffixes : f.HasSuffixes registry) (base : Ident)
    {values : List Expr}
    (each : ∀ value ∈ values, Becomes (Expr.Written f.withoutWildcards) (expand registry value)) :
    Becomes (fun expanded => ∀ value ∈ expanded, value.Written f.withoutWildcards)
      (expandElements registry base values) := by
  induction values with
  | nil => exact Yields.of_pure (List.forall_mem_nil _)
  | cons e rest ih =>
    obtain ⟨first, restEach⟩ := List.forall_mem_cons.mp each
    have others := ih restEach
    by_cases single : e.isWildcard = false
    · rw [expandElements_cons base single]
      refine first.bind fun expanded expandedWritten => others.bind fun tail tailWritten => ?_
      exact List.forall_mem_cons.mpr ⟨expandedWritten, tailWritten⟩
    · cases e with
      | wildcard loc =>
        refine (yields_suffixes hasSuffixes base loc).bind fun values valuesWritten => ?_
        refine others.bind fun expanded expandedWritten => ?_
        exact List.forall_mem_append.mpr ⟨valuesWritten, expandedWritten⟩
      | _ => exact absurd rfl single

/-- Both where an expression stands by itself and where it is a key, no wildcard is left. -/
theorem becomes_expand_and_expandKey (hasSuffixes : f.HasSuffixes registry) :
    (∀ e : Expr, e.Written f → Becomes (Expr.Written f.withoutWildcards) (expand registry e)) ∧
      ∀ (base : Ident) (key : Expr), key.Written f →
        Becomes (Expr.Written f.withoutWildcards) (expandKey registry base key) := by
  refine expand_induction
    (fun e step => e.Written f → Becomes (Expr.Written f.withoutWildcards) step)
    (fun _ key step => key.Written f → Becomes (Expr.Written f.withoutWildcards) step)
    ?atom ?wildcard ?subscript ?branch ?wildcardKey ?listKey ?singleKey
  case atom =>
    intro e isAtom single written
    cases written with
    | string value loc => exact Expr.Written.string value loc
    | number value loc => exact Expr.Written.number value loc
    | boolean value loc => exact Expr.Written.boolean value loc
    | ident word loc named => exact Expr.Written.ident word loc named
    | placeholder loc allowed => exact Expr.Written.placeholder loc allowed
    | wildcard loc allowed => cases single
    | _ => cases isAtom
  case wildcard => exact fun loc _ => Yields.of_refuse _ _
  case subscript =>
    intro base key loc inside written
    cases written with
    | raw _ text textLoc _ isEval => exact Expr.Written.raw base text textLoc loc isEval
    | subscript _ _ _ keyWritten =>
      refine (inside keyWritten).bind fun _ expandedWritten => ?_
      exact Expr.Written.subscript base _ loc expandedWritten
  case branch =>
    intro build isBranch values inside written
    cases isBranch with
    | list fold loc =>
      cases written with
      | list _ _ _ listed each =>
        have expanded := becomes_reviseList fun value member =>
          inside value member (each value member)
        exact expanded.bind fun _ expandedWritten =>
          Expr.Written.list _ fold loc listed expandedWritten.2
    | compound operator loc =>
      cases written with
      | compound _ _ _ arity each =>
        have expanded := becomes_reviseList fun arg member => inside arg member (each arg member)
        exact expanded.bind fun _ expandedWritten =>
          Expr.Written.compound operator _ loc (expandedWritten.1.trans arity) expandedWritten.2
  case wildcardKey =>
    intro base loc _
    refine (yields_suffixes hasSuffixes base loc).bind fun values valuesWritten => ?_
    exact Expr.Written.list values none loc hasSuffixes.lists valuesWritten
  case listKey =>
    intro base values fold loc inside written
    cases written with
    | list _ _ _ listed each =>
      have expanded := becomes_expandElements hasSuffixes base fun value member =>
        inside value member (each value member)
      exact expanded.bind fun _ expandedWritten =>
        Expr.Written.list _ fold loc listed expandedWritten
  case singleKey => exact fun _ _ _ _ inside => inside

theorem becomes_expandTarget (hasSuffixes : f.HasSuffixes registry) {e : Expr}
    (isTarget : e.Target f) : Becomes (Expr.Target f.withoutWildcards) (expand registry e) := by
  cases isTarget with
  | ident word loc named => exact Expr.Target.ident word loc named
  | subscript base key loc keyWritten =>
    refine ((becomes_expand_and_expandKey hasSuffixes).2 base key keyWritten).bind fun _ expanded => ?_
    exact Expr.Target.subscript base _ loc expanded

theorem yields_lower (hasSuffixes : f.HasSuffixes registry) {program : List Stmt}
    (composed : Composed (Stmt.Fits (Expr.Target f) (Expr.Written f)) program) :
    Yields
      (Composed (Stmt.Fits (Expr.Target f.withoutWildcards) (Expr.Written f.withoutWildcards)))
      (lower registry program) :=
  composed.reviseEach (fun _ => becomes_expandTarget hasSuffixes)
    (becomes_expand_and_expandKey hasSuffixes).1

end Wildcard

end AutomationScript
