import AutomationScript.Proofs.Text.Positions
import AutomationScript.Proofs.Token.LineBreaks

/-!
# The marks of statement ends

Whether a line break ends a statement shows only in the next token.  `streamOf` marks the end and
may take the mark back.  In `lexemesFrom` the mark waits for the next token, which gives the same
stream (`streamOf_eq_lexemesFrom`).  `tokensFrom` is the same without places.
-/

namespace AutomationScript

open List Scanner

variable {chars : List Char} {placed : List PlacedPiece} {t : Token}

/-! ## Tokens that are written -/

def Piece.isWritten : Piece → Bool
  | .token t => t.isWritten
  | _ => true

theorem exists_cut_of_mem_pieces {start : Nat} {placed : PlacedPiece}
    (member : placed ∈ pieces start chars) : ∃ c rest, placed.piece = (cut c rest).piece := by
  induction start, chars using pieces.induct with
  | case1 start =>
    rw [pieces] at member
    cases member
  | case2 start c rest first stop ih =>
    rw [pieces] at member
    rcases mem_cons.mp member with rfl | later
    · exact ⟨c, rest, rfl⟩
    · exact ih later

theorem written_pieces {start : Nat} {placed : PlacedPiece} (member : placed ∈ pieces start chars) :
    placed.piece.isWritten = true := by
  obtain ⟨c, rest, isCut⟩ := exists_cut_of_mem_pieces member
  have kind := cutOf_cut c rest
  rw [isCut]
  generalize cut c rest = first at kind
  cases kind with
  | token _ reads => exact reads.isWritten
  | _ => rfl

theorem written_kinds {piece : Piece} (member : piece ∈ kinds chars) : piece.isWritten = true := by
  obtain ⟨placed, placedMember, rfl⟩ := mem_map.mp member
  exact written_pieces placedMember

/-! ## Streams from their first piece on -/

/-- What decides over a mark before the next token: the count of open brackets, whether a line
break here ends a statement, and whether one before has ended it. -/
structure Outlook where
  depth : Nat
  canEnd : Bool
  due : Bool

namespace Outlook

def start : Outlook :=
  ⟨0, false, false⟩

def after (o : Outlook) : Piece → Outlook
  | .gap | .fault _ => o
  | .lineBreak => ⟨o.depth, false, o.due || o.canEnd⟩
  | .token t =>
    let depth := StreamState.depthAfter o.depth t
    ⟨depth, depth == 0 && !t.asksForMore, false⟩

/-- Whether the token comes after the mark of a statement's end. -/
def marks (o : Outlook) (t : Token) : Bool :=
  o.due && !t.continuesLine

/-- Whether a statement ends here if the line does. -/
def ends (o : Outlook) : Bool :=
  o.due || o.canEnd

/-- The tokens that a piece adds to the stream. -/
def gives (o : Outlook) : Piece → List Token
  | .token t => if o.marks t then [.newline, t] else [t]
  | _ => []

end Outlook

/-- The tokens of the pieces that are left of a text.  A mark that is due stands at `place`. -/
def lexemesFrom (o : Outlook) (place : Span) : List PlacedPiece → List Lexeme
  | [] => []
  | ⟨piece, span⟩ :: rest =>
    match piece with
    | .gap | .fault _ => lexemesFrom o place rest
    | .lineBreak => lexemesFrom (o.after .lineBreak) (if o.canEnd then span else place) rest
    | .token t =>
      (if o.marks t then [⟨.newline, place⟩] else []) ++
        ⟨t, span⟩ :: lexemesFrom (o.after (.token t)) place rest

theorem mem_lexemesFrom {o : Outlook} {place : Span} {lexeme : Lexeme}
    (member : lexeme ∈ lexemesFrom o place placed) :
    ⟨.token lexeme.token, lexeme.span⟩ ∈ placed ∨
      lexeme.token = .newline ∧ (lexeme.span = place ∨ ⟨.lineBreak, lexeme.span⟩ ∈ placed) := by
  induction placed generalizing o place with
  | nil => cases member
  | cons first rest ih =>
    obtain ⟨piece, span⟩ := first
    have further : ∀ {o place}, lexeme ∈ lexemesFrom o place rest →
        ⟨.token lexeme.token, lexeme.span⟩ ∈ ⟨piece, span⟩ :: rest ∨ lexeme.token = .newline ∧
          (lexeme.span = place ∨ ⟨.lineBreak, lexeme.span⟩ ∈ ⟨piece, span⟩ :: rest) :=
      fun member => (ih member).imp (mem_cons_of_mem _)
        (.imp_right (.imp_right (mem_cons_of_mem _)))
    cases piece with
    | gap => exact further member
    | fault error => exact further member
    | lineBreak =>
      refine (further member).imp_right (.imp_right fun stands => ?_)
      rcases stands with stands | before
      · split at stands
        · exact .inr (stands ▸ mem_cons_self)
        · exact .inl stands
      · exact .inr before
    | token t =>
      rcases mem_append.mp member with marked | member
      · split at marked
        · obtain rfl := mem_singleton.mp marked
          exact .inr ⟨rfl, .inl rfl⟩
        · cases marked
      · rcases mem_cons.mp member with rfl | later
        · exact .inl mem_cons_self
        · exact further later

theorem mem_lexemesFrom_of_mem {span : Span} (member : ⟨.token t, span⟩ ∈ placed) (o : Outlook)
    (place : Span) : ⟨t, span⟩ ∈ lexemesFrom o place placed := by
  induction placed generalizing o place with
  | nil => cases member
  | cons first rest ih =>
    obtain ⟨piece, here⟩ := first
    cases piece with
    | token u =>
      refine mem_append_right _ ?_
      rcases mem_cons.mp member with same | later
      · cases same
        exact mem_cons_self
      · exact mem_cons_of_mem _ (ih later _ _)
    | _ => exact ih ((mem_cons.mp member).resolve_left fun same => by cases same) _ _

/-- No `newline` comes first. -/
def Unmarked (before : List Lexeme) : Prop :=
  ∀ last ∈ before.head?, last.token ≠ .newline

theorem dropNewline_of_unmarked {before : List Lexeme} (unmarked : Unmarked before) :
    StreamState.dropNewline before = before := by
  cases before with
  | nil => rfl
  | cons last earlier => exact if_neg (unmarked last rfl)

theorem reverse_foldl_step (written : ∀ p ∈ placed, p.piece.isWritten = true) (o : Outlook)
    (place : Span) {before : List Lexeme} (unmarked : Unmarked before) {state : StreamState}
    (isState : state = ⟨o.depth, if o.due then ⟨.newline, place⟩ :: before else before⟩)
    (ends : state.endsStatement = o.canEnd) :
    (StreamState.dropNewline (placed.foldl StreamState.step state).collected).reverse =
      before.reverse ++ lexemesFrom o place placed := by
  have dropped : StreamState.dropNewline state.collected = before := by
    rw [isState]
    cases o.due with
    | true => rfl
    | false => exact dropNewline_of_unmarked unmarked
  induction placed generalizing o place before state with
  | nil => rw [foldl_nil, dropped, lexemesFrom, append_nil]
  | cons first rest ih =>
    obtain ⟨piece, span⟩ := first
    have isWritten : piece.isWritten = true := written _ mem_cons_self
    replace written : ∀ p ∈ rest, p.piece.isWritten = true :=
      fun p member => written p (mem_cons_of_mem _ member)
    rw [foldl_cons]
    cases piece with
    | gap => exact ih written o place unmarked isState ends dropped
    | fault error => exact ih written o place unmarked isState ends dropped
    | lineBreak =>
      obtain ⟨depth, canEnd, due⟩ := o
      cases canEnd with
      | false =>
        have kept : state.step ⟨.lineBreak, span⟩ = state := by
          simp [StreamState.step, ends]
        rw [kept]
        refine ih written ⟨depth, false, due || false⟩ place unmarked ?_ ends dropped
        rw [isState, Bool.or_false]
      | true =>
        -- A mark that is due already lets no statement end again.
        have none : due = false := by
          cases due with
          | false => rfl
          | true => simp [isState, StreamState.endsStatement, Token.asksForMore] at ends
        subst none
        have marked : state.step ⟨.lineBreak, span⟩ = ⟨depth, ⟨.newline, span⟩ :: before⟩ := by
          rw [isState] at ends ⊢
          exact if_pos ends
        rw [marked]
        exact ih written ⟨depth, false, true⟩ span unmarked rfl (Bool.and_false _) rfl
    | token t =>
      have unmarked' : ∀ kept, Unmarked (⟨t, span⟩ :: kept) := by
        rintro kept _ ⟨⟩ rfl
        cases isWritten
      have taken : state.step ⟨.token t, span⟩ =
          ⟨StreamState.depthAfter o.depth t, ⟨t, span⟩ ::
            if o.marks t then ⟨.newline, place⟩ :: before else before⟩ := by
        simp only [StreamState.step, dropped]
        rw [isState, Outlook.marks]
        cases t.continuesLine <;> cases o.due <;> rfl
      have later := ih written (o.after (.token t)) place (unmarked' _) taken (by rw [taken]; rfl)
        (by rw [taken]; exact dropNewline_of_unmarked (unmarked' _))
      rw [later, lexemesFrom]
      cases o.marks t <;> simp

theorem streamOf_eq_lexemesFrom (size : Nat) (chars : List Char) (place : Span) :
    streamOf size (pieces 0 chars) =
      lexemesFrom .start place (pieces 0 chars) ++ [⟨.eof, ⟨size, size⟩⟩] := by
  have unmarked : Unmarked [] := fun _ impossible => by cases impossible
  have written : ∀ p ∈ pieces 0 chars, p.piece.isWritten = true := fun p => written_pieces
  have collected := reverse_foldl_step written .start place unmarked rfl rfl
  rw [streamOf, reverse_cons]
  exact congrArg (· ++ [_]) collected

theorem faultsOf_eq_nil_iff :
    faultsOf (pieces 0 chars) = [] ↔ ∀ error, .fault error ∉ kinds chars := by
  rw [faultsOf, filterMap_eq_nil_iff]
  constructor
  · intro none error member
    obtain ⟨placed, placedMember, isFault⟩ := mem_map.mp member
    have found := none placed placedMember
    rw [isFault] at found
    cases found
  · intro noFault placed member
    have kindMember : placed.piece ∈ kinds chars := mem_map_of_mem member
    cases isPiece : placed.piece with
    | fault error =>
      rw [isPiece] at kindMember
      exact absurd kindMember (noFault error)
    | _ => rfl

theorem tokenize_eq_ok_iff {source : String} {lexemes : List Lexeme} :
    tokenize source = .ok lexemes ↔ (∀ error, .fault error ∉ kinds source.toList) ∧
      lexemes = streamOf (byteSize source.toList) (pieces 0 source.toList) := by
  rw [← faultsOf_eq_nil_iff, ← utf8ByteSize_eq, tokenize]
  cases faultsOf (pieces 0 source.toList) with
  | nil => simp [eq_comm]
  | cons first others => simp

theorem named_tokenize {source : String} {lexemes : List Lexeme}
    (scanned : tokenize source = .ok lexemes) : ∀ lexeme ∈ lexemes, lexeme.token.Named := by
  obtain ⟨-, rfl⟩ := tokenize_eq_ok_iff.mp scanned
  intro lexeme member
  rw [streamOf_eq_lexemesFrom _ _ ⟨0, 0⟩] at member
  rcases mem_append.mp member with inside | isEnd
  · rcases mem_lexemesFrom inside with isPiece | ⟨isMark, -⟩
    · obtain ⟨c, rest, isCut⟩ := exists_cut_of_mem_pieces isPiece
      have named := named_cut c rest
      rwa [← isCut] at named
    · rw [isMark]
      trivial
  · rw [mem_singleton.mp isEnd]
    trivial

/-! ## Streams without places -/

def tokensFrom (o : Outlook) : List Piece → List Token
  | [] => []
  | piece :: rest => o.gives piece ++ tokensFrom (o.after piece) rest

theorem map_token_lexemesFrom (o : Outlook) (place : Span) (placed : List PlacedPiece) :
    (lexemesFrom o place placed).map Lexeme.token =
      tokensFrom o (placed.map PlacedPiece.piece) := by
  induction placed generalizing o place with
  | nil => rfl
  | cons first rest ih =>
    obtain ⟨piece, span⟩ := first
    cases piece with
    | gap => exact ih o place
    | fault error => exact ih o place
    | lineBreak => exact ih _ _
    | token t =>
      rw [lexemesFrom, map_append, map_cons, ih, map_cons, tokensFrom,
        Outlook.gives]
      cases o.marks t <;> rfl

/-- The tokens of a text, without the end of the input. -/
def scriptTokens (chars : List Char) : List Token :=
  tokensFrom .start (kinds chars)

theorem map_token_streamOf (size : Nat) (chars : List Char) :
    (streamOf size (pieces 0 chars)).map Lexeme.token = scriptTokens chars ++ [.eof] := by
  rw [streamOf_eq_lexemesFrom size chars ⟨0, 0⟩, map_append, map_token_lexemesFrom]
  rfl

theorem isWritten_of_mem_tokensFrom {text : List Piece}
    (written : ∀ piece ∈ text, piece.isWritten = true) {o : Outlook}
    (member : t ∈ tokensFrom o text) : t.isWritten = true ∨ t = .newline := by
  induction text generalizing o with
  | nil => cases member
  | cons piece rest ih =>
    have isWritten := written piece mem_cons_self
    replace ih := @ih fun piece member => written piece (mem_cons_of_mem _ member)
    cases piece with
    | gap => exact ih member
    | fault error => exact ih member
    | lineBreak => exact ih member
    | token u =>
      rcases mem_append.mp member with given | later
      · rw [Outlook.gives] at given
        split at given
        · rcases mem_cons.mp given with isMark | given
          · exact .inr isMark
          · exact .inl (mem_singleton.mp given ▸ isWritten)
        · exact .inl (mem_singleton.mp given ▸ isWritten)
      · exact ih later

theorem ne_eof_of_mem_scriptTokens (member : t ∈ scriptTokens chars) : t ≠ .eof := by
  rintro rfl
  rcases isWritten_of_mem_tokensFrom (fun piece => written_kinds) member with written | mark
  · cases written
  · cases mark

/-! ## The outlook after a text -/

theorem depth_foldl_after (o : Outlook) (text : List Piece) :
    (text.foldl Outlook.after o).depth = (tokensFrom o text).foldl StreamState.depthAfter o.depth := by
  induction text generalizing o with
  | nil => rfl
  | cons piece rest ih =>
    cases piece with
    | gap => exact ih o
    | fault error => exact ih o
    | lineBreak => exact ih _
    | token t =>
      rw [foldl_cons, ih, tokensFrom, Outlook.gives]
      cases o.marks t <;> rfl

/-- A line break after a text ends a statement if the last token of the text lets it. -/
theorem ends_foldl_after (o : Outlook) (text : List Piece) :
    (text.foldl Outlook.after o).ends =
      ((tokensFrom o text).getLast?.map fun last =>
        (text.foldl Outlook.after o).depth == 0 && !last.asksForMore).getD o.ends := by
  induction text generalizing o with
  | nil => rfl
  | cons piece rest ih =>
    cases piece with
    | gap => exact ih o
    | fault error => exact ih o
    | lineBreak =>
      have same : (o.after .lineBreak).ends = o.ends := Bool.or_false _
      rw [← same]
      exact ih _
    | token t =>
      have depth := depth_foldl_after (o.after (.token t)) rest
      have given : (o.gives (.token t)).getLast? = some t := by
        rw [Outlook.gives]
        cases o.marks t <;> rfl
      rw [foldl_cons, ih, tokensFrom, getLast?_append, given]
      cases last : (tokensFrom (o.after (.token t)) rest).getLast? with
      | some _ => rfl
      | none =>
        rw [getLast?_eq_none_iff.mp last] at depth
        rw [depth]
        rfl

theorem depth_foldl_step (chars : List Char) :
    ((pieces 0 chars).foldl StreamState.step ⟨0, []⟩).depth =
      (scriptTokens chars).foldl StreamState.depthAfter 0 := by
  have stepped : ∀ (state : StreamState) (o : Outlook) (p : PlacedPiece), state.depth = o.depth →
      (state.step p).depth = (o.after p.piece).depth := by
    rintro state o ⟨piece, span⟩ same
    cases piece with
    | gap => exact same
    | fault error => exact same
    | lineBreak =>
      simp only [StreamState.step]
      split <;> exact same
    | token t => exact congrArg (StreamState.depthAfter · t) same
  have folded : ∀ (placed : List PlacedPiece) (state : StreamState) (o : Outlook),
      state.depth = o.depth → (placed.foldl StreamState.step state).depth =
        ((placed.map PlacedPiece.piece).foldl Outlook.after o).depth := by
    intro placed
    induction placed with
    | nil => exact fun _ _ same => same
    | cons p rest ih => exact fun state o same => ih _ _ (stepped state o p same)
  exact (folded _ _ .start rfl).trans (depth_foldl_after .start (kinds chars))

theorem lexemesFrom_due {depth : Nat} {place : Span} {later : List Lexeme}
    (isLater : lexemesFrom ⟨depth, false, false⟩ place placed = later)
    (starts : ∀ first ∈ later.head?, first.token.continuesLine = false) :
    lexemesFrom ⟨depth, false, true⟩ place placed =
      (if later = [] then [] else [⟨.newline, place⟩]) ++ later := by
  subst isLater
  induction placed with
  | nil => rfl
  | cons first rest ih =>
    obtain ⟨piece, span⟩ := first
    cases piece with
    | gap => exact ih starts
    | fault error => exact ih starts
    | lineBreak => exact ih starts
    | token t =>
      have begins : t.continuesLine = false := starts ⟨t, span⟩ rfl
      simp [lexemesFrom, Outlook.marks, Outlook.after, begins]

end AutomationScript
