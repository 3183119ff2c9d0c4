import Offside.Proofs.ReadersAbreast

/-!
# Expressions read side by side

Level by level, two readers of expressions run side by side if the readers of the nested expressions
do. A nested expression has one token less in front of it, so the recursion gains a token at every
depth, and two readers with different limits agree as long as neither limit is smaller than the
number of tokens.
-/

namespace Offside.Expr

open Reader Lines

/-- The right part of an operation is a tail: an operator, and the operand behind it. -/
theorem readTail_eq (operators : List Kind) (operand : Reader Expr) :
    readTail operators operand =
      Reader.tail operators.contains fun operator => (operator, ·) <$> operand := by
  rw [readTail, Reader.tail]
  refine bind_congr fun operator => ?_
  cases operator with
  | none => rfl
  | some operator => simp only [map_eq_pure_bind, bind_assoc, pure_bind]

/-- The reader of expressions with any answer at the limit of the depth. -/
def readOver (atLimit : Reader Expr) : Nat → Reader Expr
  | 0 => atLimit
  | limit + 1 => readAssignment limit (readOver atLimit limit)

/-- With failure at the limit this is the reader of expressions. -/
theorem readOver_fail (limit : Nat) : readOver (Reader.fail .expression) limit = read limit := by
  induction limit with
  | zero => rfl
  | succ limit ih => rw [readOver, ih, read]

variable {g : Token → Token} {L : Lines g} {n n' limit limit' : Nat}

/-- An operator and its operand with moved tokens. -/
def moveTail (g : Token → Token) (tail : Token × Expr) : Token × Expr :=
  (g tail.1, tail.2.move g)

/-! ## Levels, powers and prefix operators -/

section

variable {operand operand' : Reader Expr}

/-- Chains of operators and operands are read abreast. -/
theorem abreast_tails {operators : List Kind}
    (hoperators : ∀ kind, operators.contains kind → kind.isStructural = false)
    (hoperand : L.Abreast (n - 1) (n' - 1) 0 (Expr.move g) operand operand')
    (hn : n ≤ limit + 1) (hn' : n' ≤ limit' + 1) :
    L.Abreast n n' 0 (List.map (moveTail g)) (collect (readTail operators operand) [] limit)
      (collect (readTail operators operand') [] limit') := by
  rw [readTail_eq, readTail_eq]
  refine abreast_collect hoperators (fun operator _ => ?_) hn hn'
  exact hoperand.map fun e => rfl

/-- Operators are tokens inside lines. -/
theorem operators_not_structural {level : Level} (hlevel : level ∈ levels) (kind : Kind)
    (hkind : level.operators.contains kind) : kind.isStructural = false := by
  have hall : levels.all fun level => level.operators.all fun kind => !kind.isStructural := rfl
  have hkinds := List.all_eq_true.mp (List.all_eq_true.mp hall level hlevel) kind
    (List.contains_iff_mem.mp hkind)
  simpa using hkinds

/-- Moving a chain of operations moves its first operand and its tails. -/
theorem move_foldl_join {level : Level} (hlevel : level ∈ levels) (first : Expr)
    (tails : List (Token × Expr)) :
    (tails.foldl (fun left (operator, right) => level.join left operator right) first).move g =
      (tails.map (moveTail g)).foldl (fun left (operator, right) => level.join left operator right)
        (first.move g) := by
  obtain ⟨i, hi⟩ := List.mem_iff_getElem?.mp hlevel
  induction tails generalizing first with
  | nil => rfl
  | cons tail tails ih =>
    simp only [List.foldl_cons, List.map_cons, ih, move_join hi]
    rfl

/-- One level of operations is read abreast if its operands are. -/
theorem abreast_readLevel {level : Level} (hlevel : level ∈ levels)
    (hoperand : L.Abreast n n' 1 (Expr.move g) operand operand') (hn : n ≤ limit + 2)
    (hn' : n' ≤ limit' + 2) :
    L.Abreast n n' 1 (Expr.move g) (readLevel limit level operand)
      (readLevel limit' level operand') := by
  refine hoperand.bind (l := 0) fun first => ?_
  have htails : L.Abreast (n - 1) (n' - 1) 0 (List.map (moveTail g))
      (collect (readTail level.operators operand) [] limit)
      (collect (readTail level.operators operand') [] limit') :=
    abreast_tails (operators_not_structural hlevel)
      (hoperand.mono (by omega) (by omega) (Nat.zero_le _)) (by omega) (by omega)
  refine htails.bind (l := 0) fun tails => ?_
  rw [← move_foldl_join hlevel]
  exact abreast_pure _

/-- So are all levels, from the tightest one outwards. -/
theorem abreast_levels {levels' : List Level} (hlevels : ∀ level ∈ levels', level ∈ levels)
    (hoperand : L.Abreast n n' 1 (Expr.move g) operand operand') (hn : n ≤ limit + 2)
    (hn' : n' ≤ limit' + 2) :
    L.Abreast n n' 1 (Expr.move g) (levels'.foldr (readLevel limit) operand)
      (levels'.foldr (readLevel limit') operand') := by
  induction levels' with
  | nil => exact hoperand
  | cons level levels' ih =>
    have hrest := ih fun level hlevel => hlevels level (List.mem_cons_of_mem _ hlevel)
    exact abreast_readLevel (hlevels level List.mem_cons_self) hrest hn hn'

/-- Moving a chain of powers moves its first operand and its tails. -/
theorem move_joinPowers (first : Expr) (tails : List (Token × Expr)) :
    (joinPowers first tails).move g = joinPowers (first.move g) (tails.map (moveTail g)) := by
  induction tails generalizing first with
  | nil => rfl
  | cons tail tails ih =>
    obtain ⟨operator, next⟩ := tail
    simp only [joinPowers, List.map_cons, moveTail, Expr.move, ih]

/-- Powers are read abreast. -/
theorem abreast_readPower {primary primary' : Reader Expr}
    (hprimary : L.Abreast n n' 1 (Expr.move g) primary primary') (hn : n ≤ limit + 2)
    (hn' : n' ≤ limit' + 2) :
    L.Abreast n n' 1 (Expr.move g) (readPower limit primary) (readPower limit' primary') := by
  refine hprimary.bind (l := 0) fun first => ?_
  have htails : L.Abreast (n - 1) (n' - 1) 0 (List.map (moveTail g))
      (collect (readTail [.symbol .power] primary) [] limit)
      (collect (readTail [.symbol .power] primary') [] limit') := by
    refine abreast_tails (fun kind hkind => ?_)
      (hprimary.mono (by omega) (by omega) (Nat.zero_le _)) (by omega) (by omega)
    obtain rfl : kind = .symbol .power := by simpa using hkind
    rfl
  refine htails.bind (l := 0) fun tails => ?_
  rw [← move_joinPowers]
  exact abreast_pure _

/-- So are unary operators in front of them. -/
theorem abreast_readPrefixed {primary primary' : Reader Expr}
    (hprimary : L.Abreast n n' 1 (Expr.move g) primary primary') (hn : n ≤ limit + 2)
    (hn' : n' ≤ limit' + 2) :
    L.Abreast n n' 1 (Expr.move g) (readPrefixed limit primary)
      (readPrefixed limit' primary') := by
  have hmove (operators : List Token) (operand : Expr) :
      (operators.foldr applyPrefix operand).move g =
        (operators.map g).foldr applyPrefix (operand.move g) := by
    induction operators with
    | nil => rfl
    | cons operator operators ih =>
      rw [List.foldr_cons, move_applyPrefix L.isMove, ih, List.map_cons, List.foldr_cons]
  refine (abreast_takeWhile (p := prefixOperators.contains) (fun kind hkind => ?_)).bind
    (k := 0) (l := 1) fun operators => ?_
  · have hall : prefixOperators.all fun kind => !kind.isStructural := rfl
    simpa using List.all_eq_true.mp hall kind (List.contains_iff_mem.mp hkind)
  · refine (abreast_readPower hprimary hn hn').bind (l := 0) fun operand => ?_
    rw [← hmove]
    exact abreast_pure _

end

/-! ## Primaries -/

section

variable {expression expression' : Reader Expr}

/-- So are items separated by commas. -/
theorem abreast_readItems (hexpr : L.Abreast n n' 0 (Expr.move g) expression expression')
    (hn : n ≤ limit + 1) (hn' : n' ≤ limit' + 1) (closing : Symbol) :
    L.Abreast n n' 0 (moveEach g) (readItems limit expression closing)
      (readItems limit' expression' closing) := by
  refine (abreast_nextIs _).bind (l := 0) fun next => ?_
  cases next with
  | true => exact abreast_pure _
  | false =>
    refine hexpr.bind (l := 0) fun first => ?_
    have htails : L.Abreast n n' 0 (List.map (moveTail g))
        (collect (readTail [.symbol .comma] expression) [] limit)
        (collect (readTail [.symbol .comma] expression') [] limit') := by
      refine abreast_tails (fun kind hkind => ?_)
        (hexpr.mono (by omega) (by omega) (Nat.le_refl _)) hn hn'
      obtain rfl : kind = .symbol .comma := by simpa using hkind
      rfl
    refine htails.bind (l := 0) fun tails => ?_
    have hitems : first.move g :: (tails.map (moveTail g)).map Prod.snd =
        moveEach g (first :: tails.map Prod.snd) := by
      simp [moveEach_eq, moveTail]
    simp only [hitems]
    exact abreast_pure _

/-- A closing symbol behind what stands inside. -/
theorem abreast_enclosed {α : Type} {inner inner' : Reader α} {f : α → α}
    (hinner : L.Abreast n n' 0 f inner inner') (closing : Symbol) {what : Expectation}
    (hwhat : what ≠ .blockEnd) {build build' : α → Expr}
    (hbuild : ∀ a, build' (f a) = (build a).move g) :
    L.Abreast n n' 0 (Expr.move g)
      (do
        let a ← inner
        let _ ← expect (.symbol closing) what
        return build a)
      (do
        let a ← inner'
        let _ ← expect (.symbol closing) what
        return build' a) := by
  refine hinner.bind (l := 0) fun a => ?_
  refine ((abreast_expect rfl hwhat).weaken (Nat.zero_le _)).bind (l := 0) fun _ => ?_
  rw [hbuild]
  exact abreast_pure _

/-- The index behind a name is read abreast. -/
theorem abreast_readIndex (hexpr : L.Abreast n n' 0 (Expr.move g) expression expression')
    (name : Token) :
    L.Abreast n n' 0 (Expr.move g) (readIndex expression name)
      (readIndex expression' (g name)) := by
  have hclose {index index' : Expr} (h : index' = index.move g) :
      L.Abreast n n' 0 (Expr.move g) (closeIndex index) (closeIndex index') := by
    subst h
    exact ((abreast_expect rfl (by simp)).weaken (Nat.zero_le _)).bind (l := 0) fun _ =>
      abreast_pure _
  rw [readIndex_eq, readIndex_eq]
  refine hexpr.bind (l := 0) fun start => ?_
  refine Abreast.accept rfl (hclose rfl) fun _ _ => ?_
  refine hexpr.bind (l := 0) fun stop => ?_
  refine Abreast.accept rfl (hclose rfl) fun _ _ => ?_
  exact hexpr.bind (l := 0) fun step => hclose rfl

/-- So is what may follow a name. -/
theorem abreast_readName (hexpr : L.Abreast n n' 0 (Expr.move g) expression expression')
    (hn : n ≤ limit + 1) (hn' : n' ≤ limit' + 1) (name : Token) :
    L.Abreast n n' 0 (Expr.move g) (readName limit expression name)
      (readName limit' expression' (g name)) := by
  rw [readName_eq, readName_eq]
  refine Abreast.accept rfl ?_ fun _ _ => abreast_readIndex hexpr name
  refine Abreast.accept rfl (abreast_pure _) fun _ _ => ?_
  exact abreast_enclosed (abreast_readItems hexpr hn hn' .rightParen) .rightParen (by simp)
    fun arguments => rfl

/-- What a token starts, in both runs. -/
inductive Starts (L : Lines g) (n n' : Nat) :
    Option (Reader Expr) → Option (Reader Expr) → Prop
  | none : Starts L n n' none none
  | some {r r' : Reader Expr} : L.Abreast n n' 0 (Expr.move g) r r' →
    Starts L n n' (some r) (some r')

/-- The same first tokens start operands on both sides, and these are read abreast. -/
theorem starts_readPrimaryFrom (hexpr : L.Abreast n n' 0 (Expr.move g) expression expression')
    (hn : n ≤ limit + 1) (hn' : n' ≤ limit' + 1) (t : Token) :
    Starts L n n' (readPrimaryFrom limit expression t)
      (readPrimaryFrom limit' expression' (g t)) := by
  unfold readPrimaryFrom
  rw [L.isMove.kind]
  split
  · exact .some (abreast_pure _)
  · exact .some (abreast_pure _)
  · exact .some (abreast_pure _)
  · exact .some (abreast_pure _)
  · exact .some (abreast_pure _)
  · have hwhat : Expectation.groupEnd ≠ .blockEnd := by simp
    exact .some (abreast_enclosed hexpr .rightParen hwhat fun inner => rfl)
  · have hwhat : Expectation.listEnd ≠ .blockEnd := by simp
    have hitems := abreast_readItems hexpr hn hn' .rightBracket
    exact .some (abreast_enclosed hitems .rightBracket hwhat fun items => rfl)
  · exact .some (abreast_readName hexpr hn hn' t)
  · exact .none

/-- An operand starts inside a line. -/
theorem not_structural_of_startsPrimary {kind : Kind} (h : kind.startsPrimary = true) :
    kind.isStructural = false := by
  cases kind with
  | newline => exact absurd h (by decide)
  | indent => exact absurd h (by decide)
  | dedent => exact absurd h (by decide)
  | endOfInput => exact absurd h (by decide)
  | _ => rfl

/-- A primary has a token more than the expressions in it. -/
theorem abreast_readPrimary (hexpr : L.Abreast n n' 0 (Expr.move g) expression expression')
    (hn : n ≤ limit + 1) (hn' : n' ≤ limit' + 1) :
    L.Abreast (n + 1) (n' + 1) 1 (Expr.move g) (readPrimary limit expression)
      (readPrimary limit' expression') := by
  intro ts us hts hus hline
  have hexpression : Expectation.expression ≠ .blockEnd := by simp
  cases ts with
  | nil =>
    obtain rfl := eq_nil hline
    exact abreast_fail hexpression [] [] hts hus hline
  | cons t ts =>
    obtain ⟨vs, rfl⟩ := uncons hline
    have hstarts := starts_readPrimaryFrom hexpr hn hn' t
    have hnone : t.kind.startsPrimary = false → readPrimaryFrom limit expression t = none :=
      readPrimaryFrom_none
    simp only [readPrimary]
    generalize readPrimaryFrom limit expression t = r at hstarts hnone ⊢
    generalize readPrimaryFrom limit' expression' (g t) = r' at hstarts ⊢
    cases hstarts with
    | none => exact abreast_fail hexpression (t :: ts) (g t :: vs) hts hus hline
    | some hr =>
      have hplain : t.kind.isStructural = false := by
        apply not_structural_of_startsPrimary
        cases hstart : t.kind.startsPrimary with
        | true => rfl
        | false => cases hnone hstart
      simp only [List.length_cons] at hts hus ⊢
      have hrest := hr ts vs (by omega) (by omega) (L.take hline hplain)
      exact hrest.mono (by omega) (by omega) (by omega) (by omega)

/-! ## The recursion -/

/-- An invalid target is blamed on the same token on both sides. -/
theorem abreast_invalidTarget {α : Type} {f : α → α} {sign : Token}
    (hsign : sign.kind = .symbol .equal) :
    L.Abreast n n' 0 f (throw ⟨.invalidTarget, some sign⟩)
      (throw ⟨.invalidTarget, some (g sign)⟩) := by
  intro ts us _ _ hline
  exact .error (e := ⟨.invalidTarget, some sign⟩) hline (Nat.le_refl _) (Nat.le_refl _)
    ⟨sign, rfl, hsign⟩

/-- An expression has a token more than the expressions that are nested in it. -/
theorem abreast_readAssignment (hexpr : L.Abreast n n' 0 (Expr.move g) expression expression')
    (hn : n ≤ limit + 1) (hn' : n' ≤ limit' + 1) :
    L.Abreast (n + 1) (n' + 1) 1 (Expr.move g) (readAssignment limit expression)
      (readAssignment limit' expression') := by
  have hprefixed : L.Abreast (n + 1) (n' + 1) 1 (Expr.move g)
      (readPrefixed limit (readPrimary limit expression))
      (readPrefixed limit' (readPrimary limit' expression')) :=
    abreast_readPrefixed (abreast_readPrimary hexpr hn hn') (by omega) (by omega)
  have htarget : L.Abreast (n + 1) (n' + 1) 1 (Expr.move g) (readOperation limit expression)
      (readOperation limit' expression') :=
    abreast_levels (fun level h => h) hprefixed (by omega) (by omega)
  refine htarget.bind (l := 0) fun target => ?_
  refine Abreast.accept rfl (abreast_pure _) fun sign hsign => ?_
  refine hexpr.bind (l := 0) fun value => ?_
  cases target with
  | «variable» name => exact abreast_pure (Expr.assign name value)
  | _ => exact abreast_invalidTarget hsign

end

/-- An expression is expected where there are no tokens. -/
theorem readAssignment_nil (limit : Nat) (expression : Reader Expr) :
    readAssignment limit expression [] = Reader.fail .expression [] := rfl

/-- So it is for any depth of nesting. -/
theorem read_nil (limit : Nat) : read limit [] = Reader.fail .expression [] := by
  cases limit with
  | zero => rfl
  | succ limit => exact readAssignment_nil limit _

/-- Below the limit of the depth, its answer does not matter. -/
theorem abreast_readOver (atLimit atLimit' : Reader Expr) (limit limit' : Nat) :
    L.Abreast limit limit' 1 (Expr.move g) (readOver atLimit limit)
      (readOver atLimit' limit') := by
  induction limit generalizing limit' with
  | zero => exact fun ts us hts => absurd hts (Nat.not_lt_zero _)
  | succ limit ih =>
    cases limit' with
    | zero => exact fun ts us _ hus => absurd hus (Nat.not_lt_zero _)
    | succ limit' =>
      exact abreast_readAssignment ((ih limit').weaken (Nat.zero_le _)) (by omega) (by omega)

/-- At the limit of the depth there are no tokens left, and the answer is right. -/
theorem abreast_read (limit limit' : Nat) :
    L.Abreast (limit + 1) (limit' + 1) 1 (Expr.move g) (read limit) (read limit') := by
  have hempty (limit limit' : Nat) {us : List Token} (hline : L.inLine [] us) :
      L.Outcome 0 us.length 1 (Expr.move g) (read limit []) (read limit' us) := by
    obtain rfl := eq_nil hline
    rw [read_nil, read_nil]
    exact abreast_fail (by simp) [] [] Nat.one_pos Nat.one_pos hline
  induction limit generalizing limit' with
  | zero =>
    intro ts us hts _ hline
    obtain rfl := List.length_eq_zero_iff.mp (Nat.lt_one_iff.mp hts)
    exact hempty 0 limit' hline
  | succ limit ih =>
    cases limit' with
    | zero =>
      intro ts us _ hus hline
      obtain rfl := List.length_eq_zero_iff.mp (Nat.lt_one_iff.mp hus)
      obtain rfl : ts = [] := by simpa [eq_comm] using L.agree hline
      exact hempty (limit + 1) 0 hline
    | succ limit' =>
      exact abreast_readAssignment ((ih limit').weaken (Nat.zero_le _)) (by omega) (by omega)

end Offside.Expr
