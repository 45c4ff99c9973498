import AutomationScript.Proofs.Grammar.MirrorScripts
import AutomationScript.Proofs.Token.Spans

/-!
# Where the statements and errors of a script stand

The tokens of a script stand inside of it, and so do its statements and errors (`placed_parse`).
-/

namespace AutomationScript

variable {P : Location → Prop} {closed : UnionClosed P}

theorem PlacedStream.streams {tokens : List PlacedToken} (stream : PlacedStream P tokens) :
    Streams (.placed P closed) tokens tokens := by
  obtain ⟨⟨front, loc, rfl⟩, each⟩ := stream
  induction front with
  | nil => exact .last ⟨rfl, .of_some (each _ List.mem_cons_self)⟩
  | cons first rest ih =>
    obtain ⟨holds, others⟩ := List.forall_mem_cons.mp each
    exact .cons first.token ⟨rfl, .of_some holds⟩ (ih others)

theorem Blamed.placed {d d' : Diagnostic} (blamed : Blamed (.placed P closed) d d') :
    d.Placed Cause.IsGrammar P := by
  cases blamed with
  | mk error placed => exact ⟨⟨error, rfl⟩, placed.2⟩

/-- The statements of a script are placed inside it, and so are its errors, which are all errors
of its characters or all errors of its grammar. -/
theorem placed_parse (source : String) :
    SameProgram (.placed (Location.Inside source.toList) Location.Inside.union) (parse source).1
        (parse source).1 ∧
      ((∀ error ∈ (parse source).2,
          error.Placed Cause.IsLexical (Location.Inside source.toList)) ∨
        ∀ error ∈ (parse source).2,
          error.Placed Cause.IsGrammar (Location.Inside source.toList)) := by
  unfold parse
  cases scanned : tokenize source with
  | error errors => exact ⟨.nil, .inl (placed_faults scanned)⟩
  | ok lexemes =>
    obtain ⟨same, blamed⟩ := same_parseTokens (placedStream_of_tokenize scanned).streams
    refine ⟨same, .inr fun error member => ?_⟩
    exact (List.forall₂_same.mp blamed error member).placed

end AutomationScript
