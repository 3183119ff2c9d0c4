import Offside.Proofs.Simulation

/-!
# Fuel

Fuel decides whether a run comes to an end, and nothing else. This is the simulation of a run by
itself: the second run may have more fuel than the first one, and as long as the first one does not
run out, both are in the same state. So a source that runs to an end in a session does so in one way
only, whatever the fuel.
-/

namespace Offside

/-- Values that do not differ at all. -/
def Likeness.equality : Likeness where
  identity := Eq
  moves g := g = id
  identity_iff := by
    rintro i _ j _ rfl rfl
    rfl
  isMove hg := isMove_of_eq_id hg

mutual

/-- A value is like itself when identities are compared by equality. -/
theorem Value.alike_equality_self : ∀ v : Value, v.Alike .equality v
  | .number x => .number x
  | .string contents => .string contents
  | .boolean b => .boolean b
  | .none => .none
  | .list _ items => .list rfl (Value.alike_equality_each items)
  | .function i definition => by
    have halike : Value.Alike .equality (.function i definition)
        (.function i (definition.move id)) :=
      .function definition rfl rfl
    rwa [Function.move_id] at halike

/-- So is each item of a list. -/
theorem Value.alike_equality_each : ∀ items : List Value,
    List.Forall₂ (Value.Alike .equality) items items
  | [] => .nil
  | v :: items => .cons (Value.alike_equality_self v) (Value.alike_equality_each items)

end

mutual

/-- Values alike under equal identities are equal. -/
theorem Value.eq_of_alike : ∀ {v v' : Value}, v.Alike .equality v' → v = v'
  | .list _ _, _, h => by
    cases h with
    | list hidentity hitems => rw [hidentity, Value.eq_of_alike_each hitems]
  | .function _ _, _, h => by
    cases h with
    | function definition hidentity hmove => rw [hidentity, hmove, Function.move_id]
  | .number _, _, h | .string _, _, h | .boolean _, _, h | .none, _, h => by
    cases h
    rfl

/-- So are lists of them. -/
theorem Value.eq_of_alike_each : ∀ {items items' : List Value},
    List.Forall₂ (Value.Alike .equality) items items' → items = items'
  | [], _, h => by
    cases h
    rfl
  | _ :: _, _, h => by
    cases h with
    | cons hv hitems => rw [Value.eq_of_alike hv, Value.eq_of_alike_each hitems]

end

/-- Bindings alike under equal identities are equal. -/
theorem Bindings.eq_of_alike {bindings bindings' : Bindings}
    (h : bindings.Alike .equality bindings') : bindings = bindings' := by
  induction h with
  | nil => rfl
  | cons hentry _ ih => rw [ih, Prod.ext hentry.1 (Value.eq_of_alike hentry.2)]

/-- Runs in the same state. -/
def Simulation.equality : Simulation where
  toLikeness := .equality
  machine := Eq
  frame := Eq
  excused halt := halt = .exhausted
  exhausted := rfl
  global := rfl
  lookup := by
    rintro m _ f _ name rfl rfl
    cases m.scopes.lookup f name with
    | none => exact .none
    | some v => exact .some v.alike_equality_self
  assign := by
    rintro m _ f _ v v' name rfl rfl hv
    rw [Value.eq_of_alike hv]
  issue := by
    rintro m _ rfl
    exact ⟨rfl, rfl⟩
  print := by
    rintro m _ line rfl
    exact ⟨rfl, rfl⟩
  enter := by
    rintro m _ f _ rfl rfl
    exact ⟨rfl, rfl⟩
  leave := by
    rintro m _ n _ rfl rfl
    rfl
  tooDeep := by
    rintro m _ rfl hdeep
    exact .inl hdeep
  notTooDeep := by
    rintro m _ rfl hdeep
    exact hdeep
  call := by
    rintro m _ bindings bindings' rfl hbindings
    rw [Bindings.eq_of_alike hbindings]
    exact ⟨rfl, rfl⟩
  comeBack := by
    rintro m _ n _ rfl rfl
    rfl

/-- The statements of a program end as they did with less fuel, unless that ran out. -/
theorem runProgram_of_le {fuel fuel' : Nat} (hle : fuel ≤ fuel') (program : List Stmt)
    (m : Machine) :
    (∃ m', runProgram fuel program m = .error .exhausted m') ∨
      Session.conclude (runProgram fuel' program m) =
        Session.conclude (runProgram fuel program m) := by
  have hmatches := Simulation.matches_body (Simulation.equality.matchesParts hle)
    Simulation.equality.global (g := id) rfl program m m rfl
  change Simulation.equality.Related _ (runProgram fuel program m)
    (runProgram fuel' (Stmt.moveEach id program) m) at hmatches
  rw [Stmt.moveEach_id] at hmatches
  generalize runProgram fuel program m = r at hmatches ⊢
  generalize runProgram fuel' program m = r' at hmatches ⊢
  cases hmatches with
  | ok hm _ =>
    cases hm
    exact .inr rfl
  | @failed e e' _ _ hm he =>
    cases hm
    obtain ⟨hfault, g, rfl, htoken⟩ := he
    have hsame : e' = e := by
      cases e
      cases e'
      exact congrArg₂ RuntimeError.mk hfault htoken
    rw [hsame]
    exact .inr rfl
  | @excused halt m' _ hhalt =>
    cases hhalt
    exact .inl ⟨m', rfl⟩

namespace Session

variable {s : Session} {source : String} {fuel fuel' : Nat} {r r' : Outcome × Session}

/-- More fuel does not change a run that came to an end. -/
theorem run_of_le (hle : fuel ≤ fuel') (h : s.run fuel source = some r) :
    s.run fuel' source = some r := by
  rw [Session.run_eq] at h ⊢
  split at h
  next hclean =>
    rw [if_pos hclean]
    rcases runProgram_of_le hle (check source).program s.start with ⟨m, hexhausted⟩ | hsame
    · rw [hexhausted] at h
      cases h
    · rwa [hsame]
  next hclean => rwa [if_neg hclean]

/-- A source runs to one end only. -/
theorem run_unique (h : s.run fuel source = some r) (h' : s.run fuel' source = some r') :
    r = r' := by
  rcases Nat.le_total fuel fuel' with hle | hle
  · exact Option.some.inj ((run_of_le hle h).symm.trans h')
  · exact Option.some.inj (h.symm.trans (run_of_le hle h'))

end Session

end Offside
