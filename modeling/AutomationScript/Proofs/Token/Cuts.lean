import AutomationScript.Proofs.Token.Identifiers
import Mathlib.Data.List.TakeWhile

/-!
# What is cut off a text

The first piece of a text is a run of spaces, a comment, a run of line breaks, a token or a fault.
What is taken and what is left make up the text (`taken_append_rest`), and a token is read again
from its own characters before any text that does not go on with them.
-/

namespace AutomationScript

open List

/-- Whether the token stands in the text: the ends of lines and of the text do not. -/
def Token.isWritten : Token → Bool
  | .newline | .eof => false
  | _ => true

theorem isWritten_ofWord (word : List Char) : (Token.ofWord word).isWritten = true := by
  unfold Token.ofWord
  split
  · rfl
  · rfl
  · split <;> rfl

namespace Scanner

variable {c : Char} {rest after chars : List Char} {t : Token} {double : Bool}

/-- A token is cut off the text `c :: rest`.  Only text for the runtime can go over lines. -/
structure TokenOf (c : Char) (rest : List Char) (t : Token) (taken after : List Char) : Prop where
  isWritten : t.isWritten = true
  named : t.Named
  oneLine : '\n' ∈ taken → ∃ text, t = .eval text
  whole : rest = taken ++ after
  again : ∀ other, BrokenOff after other → cut c (taken ++ other) = ⟨.token t, c :: taken, other⟩

/-- The first piece of the text `c :: rest`, by its kind. -/
inductive CutOf (c : Char) (rest : List Char) : Cut → Prop
  | spaces : isSpace c = true →
      CutOf c rest ⟨.gap, c :: rest.takeWhile isSpace, rest.dropWhile isSpace⟩
  | comment : c = '/' ∨ c = '-' → rest.head? = some c → CutOf c rest (cutComment (c :: rest))
  | lineBreaks : isLineBreak c = true →
      CutOf c rest ⟨.lineBreak, c :: rest.takeWhile isLineBreak, rest.dropWhile isLineBreak⟩
  | token {t : Token} {taken after : List Char} : isLineBreak c = false →
      TokenOf c rest t taken after → CutOf c rest ⟨.token t, c :: taken, after⟩
  | fault (error : LexicalError) {taken after : List Char} : isLineBreak c = false →
      taken ++ after = c :: rest → CutOf c rest ⟨.fault error, taken, after⟩

theorem CutOf.of_reads {taken : List Char} (goesOn : isLineBreak c = false)
    (reads : TokenOf c rest t taken after) : CutOf c rest (cut c rest) := by
  have read := reads.again after (.refl after)
  rw [← reads.whole] at read
  rw [read]
  exact .token goesOn reads

/-! ## Runs -/

theorem splitRun_append_of_stop {belongs : Char → Bool} {run : List Char}
    (inside : ∀ c ∈ run, belongs c = true) (stop : List Char)
    (stops : ∀ c ∈ stop.head?, belongs c = false) :
    splitRun belongs (run ++ stop) = (run, stop) := by
  have none : stop.takeWhile belongs = [] ∧ stop.dropWhile belongs = stop := by
    cases stop with
    | nil => exact ⟨rfl, rfl⟩
    | cons c more => simp [stops c rfl]
  rw [splitRun, takeWhile_append_of_pos inside, dropWhile_append_of_pos inside, none.1,
    none.2, append_nil]

/-- A run is read again before everything that does not go on with it. -/
theorem splitRun_again {belongs : Char → Bool}
    (atBreak : ∀ c, belongs c = true → isLineBreak c = false) {other : List Char}
    (broken : BrokenOff (chars.dropWhile belongs) other) :
    splitRun belongs (chars.takeWhile belongs ++ other) = (chars.takeWhile belongs, other) := by
  refine splitRun_append_of_stop (fun c => mem_takeWhile_imp) other fun c isHead => ?_
  cases belongsHere : belongs c with
  | false => rfl
  | true =>
    obtain ⟨rest, rfl⟩ := head?_eq_some_iff.mp isHead
    obtain ⟨more, whole⟩ := broken [c] (forall_mem_singleton.mpr (atBreak c belongsHere))
      (prefix_append [c] rest)
    have stopped := head?_dropWhile_not belongs chars
    rw [← whole] at stopped
    exact absurd belongsHere (Bool.eq_false_iff.mp (by simpa using stopped))

/-! ## Numerals -/

theorem isLineBreak_of_isDigit (c : Char) (isDigit : c.isDigit = true) : isLineBreak c = false :=
  isLineBreak_eq_false Char.isDigit (by decide) isDigit

theorem cutNumber_of_whole {whole : List Char}
    (split : splitRun Char.isDigit chars = (whole, after))
    (plain : ∀ digit, digit.isDigit = true → ¬['.', digit] <+: after) :
    cutNumber chars = ⟨.token (.number (Number.ofNumeral false whole [] 0)), whole, after⟩ := by
  unfold cutNumber
  rw [split]
  dsimp only
  split
  next digit more =>
    rw [if_neg fun isDigit => plain digit isDigit (prefix_append ['.', digit] more)]
    rfl
  next => rfl

theorem cutNumber_of_fraction {whole more fraction : List Char} {digit : Char}
    (split : splitRun Char.isDigit chars = (whole, '.' :: digit :: more))
    (isDigit : digit.isDigit = true)
    (splitMore : splitRun Char.isDigit (digit :: more) = (fraction, after)) :
    cutNumber chars = ⟨.token (.number (Number.ofNumeral false whole fraction 0)),
      whole ++ '.' :: fraction, after⟩ := by
  simp only [cutNumber, split, isDigit, if_true, splitMore]
  rfl

theorem exists_cutNumber_again (chars : List Char) :
    ∃ value taken after, value.isNegative = false ∧ '\n' ∉ taken ∧ chars = taken ++ after ∧
      ∀ other, BrokenOff after other →
        cutNumber (taken ++ other) = ⟨.token (.number value), taken, other⟩ := by
  have digits : ∀ chars : List Char, ∀ c ∈ chars.takeWhile Char.isDigit, c.isDigit = true :=
    fun chars c => mem_takeWhile_imp
  have noBreak : ∀ chars : List Char, '\n' ∉ chars.takeWhile Char.isDigit :=
    fun chars member => absurd (digits chars _ member) (by decide)
  have parts := chars.takeWhile_append_dropWhile (p := Char.isDigit)
  by_cases fraction : ∃ digit more, digit.isDigit = true ∧
      chars.dropWhile Char.isDigit = '.' :: digit :: more
  · obtain ⟨digit, more, isDigit, isLeft⟩ := fraction
    rw [isLeft] at parts
    have inFraction : (digit :: more).takeWhile Char.isDigit ++
        (digit :: more).dropWhile Char.isDigit = digit :: more :=
      takeWhile_append_dropWhile
    refine ⟨Number.ofNumeral false (chars.takeWhile Char.isDigit)
        ((digit :: more).takeWhile Char.isDigit) 0,
      chars.takeWhile Char.isDigit ++ '.' :: (digit :: more).takeWhile Char.isDigit,
      (digit :: more).dropWhile Char.isDigit, Number.isNegative_ofNumeral .., ?_, ?_,
      fun other broken => ?_⟩
    · simp [noBreak]
    · rw [append_assoc, cons_append, inFraction, parts]
    · have again := splitRun_again isLineBreak_of_isDigit broken
      have opens := takeWhile_cons_of_pos (l := more) isDigit
      rw [opens] at again ⊢
      rw [append_assoc]
      exact cutNumber_of_fraction
        (splitRun_append_of_stop (digits chars) ('.' :: digit :: (_ ++ other)) (by simp)) isDigit
        again
  · refine ⟨Number.ofNumeral false (chars.takeWhile Char.isDigit) [] 0, _, _,
      Number.isNegative_ofNumeral .., noBreak chars, parts.symm, fun other broken => ?_⟩
    refine cutNumber_of_whole (splitRun_again isLineBreak_of_isDigit broken) ?_
    intro digit isDigit begins
    have oneLine : ∀ c ∈ ['.', digit], isLineBreak c = false := forall_mem_cons.mpr
      ⟨rfl, forall_mem_singleton.mpr (isLineBreak_of_isDigit digit isDigit)⟩
    obtain ⟨more, isLeft⟩ := broken _ oneLine begins
    exact fraction ⟨digit, more, isDigit, isLeft.symm⟩

/-! ## Texts in braces and quotes -/

theorem cutEval_of_double (isDouble : (chars.head? == some '\x7b') = double) :
    cutEval chars =
      match splitAtClose double (if double then chars.tail else chars) with
      | some (body, after) =>
        ⟨.token (.eval (String.ofList (trimBlank body))),
          (if double then ['\x7b', '\x7b'] else ['\x7b']) ++ body ++
            (if double then ['\x7d', '\x7d'] else ['\x7d']), after⟩
      | none => ⟨.fault .unterminatedEval, '\x7b' :: chars, []⟩ := by
  subst isDouble
  rfl

theorem splitAtClose_parts {body : List Char}
    (found : splitAtClose double chars = some (body, after)) :
    chars = body ++ (if double then ['\x7d', '\x7d'] else ['\x7d']) ++ after := by
  induction chars generalizing body with
  | nil => cases found
  | cons c rest ih =>
    unfold splitAtClose at found
    split at found
    next closes =>
      obtain ⟨isClosing, isDouble⟩ := Bool.and_eq_true_iff.mp closes
      obtain rfl : c = '\x7d' := beq_iff_eq.mp isClosing
      cases found
      cases double with
      | false => rfl
      | true =>
        obtain ⟨more, rfl⟩ := head?_eq_some_iff.mp (beq_iff_eq.mp isDouble)
        rfl
    next =>
      obtain ⟨⟨inner, left⟩, innerFound, same⟩ := Option.map_eq_some_iff.mp found
      cases same
      rw [ih innerFound]
      rfl

theorem splitAtClose_again {body : List Char}
    (found : splitAtClose double chars = some (body, after)) (other : List Char) :
    splitAtClose double (body ++ (if double then ['\x7d', '\x7d'] else ['\x7d']) ++ other) =
      some (body, other) := by
  induction chars generalizing body with
  | nil => cases found
  | cons c rest ih =>
    unfold splitAtClose at found
    split at found
    next =>
      cases found
      cases double <;> rfl
    next opens =>
      obtain ⟨⟨inner, left⟩, innerFound, same⟩ := Option.map_eq_some_iff.mp found
      cases same
      have sameHead : (inner ++ (if double then ['\x7d', '\x7d'] else ['\x7d']) ++ other).head? =
          rest.head? := by
        rw [splitAtClose_parts innerFound]
        cases inner <;> cases double <;> rfl
      rw [cons_append, cons_append, splitAtClose, sameHead, if_neg opens, ih innerFound]
      rfl

theorem cutOf_cutEval (rest : List Char) : CutOf '\x7b' rest (cut '\x7b' rest) := by
  generalize isDouble : (rest.head? == some '\x7b') = double
  cases found : splitAtClose double (if double then rest.tail else rest) with
  | none =>
    change CutOf _ _ (cutEval rest)
    rw [cutEval_of_double isDouble, found]
    exact .fault _ rfl (append_nil _)
  | some parts =>
    obtain ⟨body, after⟩ := parts
    have parts := splitAtClose_parts found
    have again := splitAtClose_again found
    have opening : rest = (if double then ['\x7b'] else []) ++
        if double then rest.tail else rest := by
      cases double with
      | false => rfl
      | true =>
        obtain ⟨more, rfl⟩ := head?_eq_some_iff.mp (beq_iff_eq.mp isDouble)
        rfl
    have whole : rest = (if double then ['\x7b'] else []) ++
        (body ++ if double then ['\x7d', '\x7d'] else ['\x7d']) ++ after := by
      rw [append_assoc, ← parts]
      exact opening
    refine CutOf.of_reads (t := .eval (String.ofList (trimBlank body))) rfl
      ⟨rfl, trivial, fun _ => ⟨_, rfl⟩, whole, fun other _ => ?_⟩
    have isDouble' : (((if double then ['\x7b'] else []) ++
        (body ++ if double then ['\x7d', '\x7d'] else ['\x7d']) ++ other).head? ==
          some '\x7b') = double := by
      rw [whole] at isDouble
      cases double with
      | true => rfl
      | false => cases body <;> exact isDouble
    change cutEval _ = _
    rw [cutEval_of_double isDouble']
    cases double with
    | true =>
      simp only [if_true, cons_append, nil_append, tail_cons] at again ⊢
      rw [again]
    | false =>
      simp only [Bool.false_eq_true, if_false, nil_append] at again ⊢
      rw [again]
      rfl

theorem cutOf_cutString {quote : Char} (isQuote : quote = '"' ∨ quote = '\'') (rest : List Char) :
    CutOf quote rest (cut quote rest) := by
  have goesOn : isLineBreak quote = false := by
    rcases isQuote with rfl | rfl <;> rfl
  have opens : ∀ chars, cut quote chars = cutString quote chars := by
    rcases isQuote with rfl | rfl <;> exact fun _ => rfl
  have parts := rest.takeWhile_append_dropWhile (p := fun c => c != quote && c != '\n')
  have inside : ∀ c ∈ rest.takeWhile fun c => c != quote && c != '\n',
      (c != quote && c != '\n') = true := fun c => mem_takeWhile_imp
  have split : splitRun (fun c => c != quote && c != '\n') rest = (_, _) := rfl
  generalize rest.takeWhile (fun c => c != quote && c != '\n') = body at parts inside split
  generalize rest.dropWhile (fun c => c != quote && c != '\n') = left at parts split
  subst parts
  rw [opens]
  cases left with
  | nil =>
    rw [cutString, split]
    exact .fault _ goesOn rfl
  | cons c after =>
    by_cases closes : c = quote
    · subst closes
      rw [← opens]
      have reads : TokenOf c (body ++ c :: after) (.string (String.ofList body)) (body ++ [c])
          after := by
        refine ⟨rfl, trivial, fun member => ?_, by simp, fun other _ => ?_⟩
        · rcases mem_append.mp member with inBody | isQuote
          · exact absurd (inside _ inBody) (by simp)
          · rw [← mem_singleton.mp isQuote] at goesOn
            cases goesOn
        · have again := splitRun_append_of_stop inside (c :: other) (by simp)
          rw [opens, append_assoc, singleton_append, cutString, again]
          dsimp only
          rw [if_pos rfl]
          rfl
      exact .of_reads goesOn reads
    · rw [cutString, split]
      dsimp only
      rw [if_neg closes]
      exact .fault _ goesOn rfl

/-! ## Operators -/

theorem reads_single (isWritten : t.isWritten = true) (named : t.Named)
    (again : ∀ other, BrokenOff rest other → cut c other = ⟨.token t, [c], other⟩) :
    TokenOf c rest t [] rest :=
  ⟨isWritten, named, fun member => absurd member not_mem_nil, rfl, again⟩

theorem cutOf_cutWithEquals (long : Token) (short : Piece) (goesOn : isLineBreak c = false)
    (isWritten : long.isWritten = true) (named : long.Named)
    (opens : ∀ chars, cut c chars = cutWithEquals c chars long short)
    (isShort : (∀ other, BrokenOff rest other → cut c other = ⟨short, [c], other⟩) →
      CutOf c rest ⟨short, [c], rest⟩) : CutOf c rest (cut c rest) := by
  by_cases equals : ['='] <+: rest
  · obtain ⟨after, rfl⟩ := equals
    exact .of_reads goesOn ⟨isWritten, named, fun member => absurd member (by decide), rfl,
      fun other _ => opens _⟩
  · have again : ∀ other, BrokenOff rest other → cut c other = ⟨short, [c], other⟩ := by
      intro other broken
      rw [opens]
      unfold cutWithEquals
      split
      next after =>
        exact absurd (broken ['='] (forall_mem_singleton.mpr rfl) (prefix_append _ after)) equals
      next => rfl
    rw [again rest (.refl rest)]
    exact isShort again

theorem cutOf_dot (rest : List Char) : CutOf '.' rest (cut '.' rest) := by
  by_cases dots : ['.', '.'] <+: rest
  · obtain ⟨after, rfl⟩ := dots
    exact .of_reads (t := .ellipsis) rfl ⟨rfl, trivial, fun member => absurd member (by decide),
      rfl, fun other _ => rfl⟩
  · refine .of_reads (t := .dot) rfl (reads_single rfl trivial fun other broken => ?_)
    have oneLine : ∀ c ∈ ['.', '.'], isLineBreak c = false :=
      forall_mem_cons.mpr ⟨rfl, forall_mem_singleton.mpr rfl⟩
    unfold cut
    rw [if_neg (by decide), if_neg (by simp), if_neg (by decide), if_neg (by decide),
      if_neg (by decide)]
    simp only
    split
    next after => exact absurd (broken ['.', '.'] oneLine (prefix_append _ after)) dots
    next => rfl

theorem cutOf_mark (isWritten : t.isWritten = true) (named : t.Named)
    (goesOn : isLineBreak c = false)
    (opens : ∀ chars, cut c chars =
      if (chars.head? == some c) = true then cutComment (c :: chars) else ⟨.token t, [c], chars⟩)
    (single : rest.head? ≠ some c) : CutOf c rest ⟨.token t, [c], rest⟩ := by
  refine .token goesOn (reads_single isWritten named fun other broken => ?_)
  rw [opens, if_neg]
  rw [beq_iff_eq]
  intro doubled
  obtain ⟨more, rfl⟩ := head?_eq_some_iff.mp doubled
  obtain ⟨after, rfl⟩ :=
    broken [c] (forall_mem_singleton.mpr goesOn) (prefix_append [c] more)
  exact single rfl

theorem starts_no_gap (isPart : c.isDigit = true ∨ isWordStart c = true) :
    isSpace c = false ∧ (c == '/' || c == '-') = false ∧ isLineBreak c = false := by
  simp only [isSpace, isLineBreak, Bool.or_eq_false_iff, beq_eq_false_iff_ne]
  refine ⟨⟨?_, ?_⟩, ⟨?_, ?_⟩, ⟨?_, ?_⟩⟩ <;> rintro rfl <;> exact absurd isPart (by decide)

theorem splitWord_parts (chars : List Char) :
    (splitWord chars).1 ++ (splitWord chars).2 = chars := by
  induction chars with
  | nil => rfl
  | cons c rest ih =>
    unfold splitWord
    split
    next => exact congrArg (List.cons c) ih
    next => rfl

theorem cut_of_isDigit (isDigit : c.isDigit = true) (rest : List Char) :
    cut c rest = cutNumber (c :: rest) := by
  obtain ⟨notBlank, notMark, goesOn⟩ := starts_no_gap (.inl isDigit)
  unfold cut
  rw [notBlank, notMark, goesOn, isDigit]
  rfl

theorem cut_of_isWordStart (isDigit : c.isDigit = false) (isStart : isWordStart c = true)
    (rest : List Char) :
    cut c rest = ⟨.token (Token.ofWord (splitWord (c :: rest)).1), (splitWord (c :: rest)).1,
      (splitWord (c :: rest)).2⟩ := by
  obtain ⟨notBlank, notMark, goesOn⟩ := starts_no_gap (.inr isStart)
  unfold cut
  rw [notBlank, notMark, goesOn, isDigit, isStart]
  rfl

theorem named_ofWord (isStart : isWordStart c = true) (rest : List Char) :
    (Token.ofWord (splitWord (c :: rest)).1).Named := by
  cases read : Token.ofWord (splitWord (c :: rest)).1 with
  | ident name => exact isIdentifier_word isStart read
  | number value => exact absurd read (ofWord_ne_number _ value)
  | _ => trivial

theorem cutOf_word (isDigit : c.isDigit = false) (isStart : isWordStart c = true)
    (rest : List Char) : CutOf c rest (cut c rest) := by
  have opened := splitWord_of_isWordStart isStart
  have named : (Token.ofWord (c :: (splitWord rest).1)).Named := by
    have asked := named_ofWord isStart rest
    rwa [opened] at asked
  refine .of_reads (starts_no_gap (.inr isStart)).2.2 ⟨isWritten_ofWord _, named,
    fun member => absurd member (oneLine_splitWord rest), (splitWord_parts rest).symm,
    fun other broken => ?_⟩
  rw [cut_of_isWordStart isDigit isStart, opened, splitWord_again rest broken]

theorem cutOf_number (isDigit : c.isDigit = true) (rest : List Char) :
    CutOf c rest (cut c rest) := by
  obtain ⟨value, whole, after, unsigned, oneLine, parts, again⟩ :=
    exists_cutNumber_again (c :: rest)
  have shorter := length_cutNumber_lt rest isDigit
  rw [parts, again after (.refl after)] at shorter
  cases whole with
  | nil => exact absurd shorter (Nat.lt_irrefl _)
  | cons first taken =>
    obtain ⟨rfl, rfl⟩ := List.cons.inj parts
    refine .of_reads (t := .number value) (isLineBreak_of_isDigit c isDigit)
      ⟨rfl, unsigned, fun member => absurd (mem_cons_of_mem c member) oneLine, rfl,
        fun other broken => ?_⟩
    rw [cut_of_isDigit isDigit]
    exact again other broken

theorem cut_of_isSpace (isBlank : isSpace c = true) (rest : List Char) :
    cut c rest = ⟨.gap, c :: rest.takeWhile isSpace, rest.dropWhile isSpace⟩ := by
  unfold cut
  rw [if_pos isBlank]
  rfl

theorem cut_of_doubled (isMark : c = '/' ∨ c = '-') (doubled : rest.head? = some c) :
    cut c rest = cutComment (c :: rest) := by
  obtain ⟨more, rfl⟩ := head?_eq_some_iff.mp doubled
  rcases isMark with rfl | rfl <;> rfl

theorem cut_of_isLineBreak (breaks : isLineBreak c = true) (rest : List Char) :
    cut c rest = ⟨.lineBreak, c :: rest.takeWhile isLineBreak, rest.dropWhile isLineBreak⟩ := by
  rw [isLineBreak, Bool.or_eq_true, beq_iff_eq, beq_iff_eq] at breaks
  rcases breaks with rfl | rfl <;> rfl

theorem cutOf_cut (c : Char) (rest : List Char) : CutOf c rest (cut c rest) := by
  by_cases isDigit : c.isDigit = true
  · exact cutOf_number isDigit rest
  by_cases isStart : isWordStart c = true
  · exact cutOf_word (Bool.eq_false_iff.mpr isDigit) isStart rest
  unfold cut
  split
  next isBlank => exact .spaces isBlank
  next =>
    split
    next isMark =>
      rw [Bool.and_eq_true, Bool.or_eq_true, beq_iff_eq, beq_iff_eq, beq_iff_eq] at isMark
      exact .comment isMark.1 isMark.2
    next notMark =>
      split
      next breaks => exact .lineBreaks breaks
      next goesOn =>
        rw [Bool.not_eq_true] at goesOn
        have isShort : ∀ {t : Token}, t.isWritten = true → t.Named →
            (∀ other, BrokenOff rest other → cut c other = ⟨.token t, [c], other⟩) →
            CutOf c rest ⟨.token t, [c], rest⟩ :=
          fun isWritten named again => .token goesOn (reads_single isWritten named again)
        split
        case h_9 =>
          exact cutOf_mark (t := .minus) rfl trivial rfl (fun _ => rfl) (by simpa using notMark)
        case h_10 =>
          exact cutOf_mark (t := .slash) rfl trivial rfl (fun _ => rfl) (by simpa using notMark)
        case h_11 => exact cutOf_dot rest
        case h_12 =>
          exact cutOf_cutWithEquals .le (.token .lt) rfl rfl trivial (fun _ => rfl)
            (isShort rfl trivial)
        case h_13 =>
          exact cutOf_cutWithEquals .ge (.token .gt) rfl rfl trivial (fun _ => rfl)
            (isShort rfl trivial)
        case h_14 =>
          exact cutOf_cutWithEquals .eqEq (.token .eq) rfl rfl trivial (fun _ => rfl)
            (isShort rfl trivial)
        case h_15 =>
          exact cutOf_cutWithEquals .ne (.fault .loneBang) rfl rfl trivial (fun _ => rfl)
            fun _ => .fault _ rfl rfl
        case h_16 => exact cutOf_cutEval rest
        case h_17 => exact cutOf_cutString (.inl rfl) rest
        case h_18 => exact cutOf_cutString (.inr rfl) rest
        case h_19 => exact .fault _ goesOn rfl
        all_goals exact isShort rfl trivial fun _ _ => rfl

theorem taken_append_rest (c : Char) (rest : List Char) :
    (cut c rest).taken ++ (cut c rest).rest = c :: rest := by
  have isCut := cutOf_cut c rest
  generalize cut c rest = off at isCut
  cases isCut with
  | spaces _ => exact congrArg (List.cons c) takeWhile_append_dropWhile
  | comment _ _ => exact takeWhile_append_dropWhile
  | lineBreaks _ => exact congrArg (List.cons c) takeWhile_append_dropWhile
  | token _ reads => exact congrArg (List.cons c) reads.whole.symm
  | fault _ _ parts => exact parts

theorem named_cut (c : Char) (rest : List Char) : (cut c rest).piece.Named := by
  have isCut := cutOf_cut c rest
  generalize cut c rest = off at isCut
  cases isCut with
  | token _ reads => exact reads.named
  | _ => trivial

end Scanner

end AutomationScript
