import DependentCore.Proofs.Globals.Entries

/-!
# Rejected entries

A check that fails leaves the environment as it found it. The definition of a function is the case
to look at: its signature is declared before the body is checked, and withdrawn if the body is
rejected. What was declared by an earlier entry is kept, whether in the current module or in one
around it.

* `Env.insert?_declared`: a declaration that is made for the body can be withdrawn without a trace,
  and can always be replaced by the definition,
* `checkEntry_rejected`: a rejected entry leaves the environment as it was,
* `checkUnit_rejected`: a rejected unit leaves what its entries before the rejected one have built.
-/

namespace DependentCore

variable {fuel : Nat} {env env' : Env}

section
variable {α β : Type} {failure : Failure}

/-- A sequence of two checks fails if the first one does, or the second where the first has left
off. -/
theorem Declaring.bind_eq_error {m : Declaring α} {f : α → Declaring β}
    (h : (m >>= f).run.run env = (.error failure, env')) :
    m.run.run env = (.error failure, env') ∨
      ∃ a env₁, m.run.run env = (.ok a, env₁) ∧ (f a).run.run env₁ = (.error failure, env') := by
  rw [ExceptT.run_bind, StateT.run_bind] at h
  generalize m.run.run env = outcome at h ⊢
  obtain ⟨_ | a, env₁⟩ := outcome
  · cases h
    exact .inl rfl
  · exact .inr ⟨a, env₁, rfl, h⟩

theorem Declaring.ofCheck_eq_error {c : Check α}
    (h : (Declaring.ofCheck c).run.run env = (.error failure, env')) : env' = env := by
  cases h
  rfl

theorem register_eq_error {e : Entry .checked}
    (h : (register e).run.run env = (.error failure, env')) :
    env' = env ∧ env.insert? e.name e = none := by
  unfold register at h
  rcases Declaring.bind_eq_error h with h | ⟨_, _, hget, h⟩
  · cases h
  · cases hget
    split at h
    · cases h
    · next hinsert =>
      cases h
      exact ⟨rfl, hinsert⟩

theorem checkFunction_eq_error {loc : Location} {f : Function .written}
    (h : (checkFunction fuel loc f).run.run env = (.error failure, env')) : env' = env := by
  unfold checkFunction at h
  rcases Declaring.bind_eq_error h with h | ⟨_, _, hget, h⟩
  · cases h
  · cases hget
    exact Declaring.ofCheck_eq_error h

end

/-- A global that is put into the current module is found there. -/
theorem Modules.globals_put (ms : Modules) (name : String) (e : Entry .checked) :
    ModuleContext.globals (ModuleContext.put ms name e) = ms.current.globals.insert name e := by
  show (ModuleContext.put ms name e).current.globals = _
  rw [put_eq, current_modifyCurrent]
  rfl

/-- A new global that is taken out again leaves no trace. -/
theorem Modules.drop_put {ms : Modules} {name : String}
    (h : ms.current.globals.get? name = none) (e : Entry .checked) :
    ModuleContext.drop (ModuleContext.put ms name e) name = ms := by
  have htable (m : ModuleTree) (hm : m.globals.get? name = none) :
      (m.setGlobals (m.globals.insert name e)).setGlobals ((m.globals.insert name e).erase name)
        = m := by
    rw [Table.erase_insert, Table.erase_eq_self _ _ hm]
    cases m
    rfl
  obtain ⟨root, _ | ⟨⟨inner, m⟩, outer⟩⟩ := ms
  · exact congrArg (fun root => (⟨root, []⟩ : Modules)) (htable root h)
  · exact congrArg (fun m => (⟨root, (inner, m) :: outer⟩ : Modules)) (htable m h)

/-- A function is declared for the time in which its body is checked: the declaration can be
withdrawn, and it can be replaced by the definition. -/
theorem Env.insert?_declared {name : String} {s : Signature .checked}
    (h : env.insert? name ⟨(), name, .declared s⟩ = some env') :
    env'.remove name = env ∧ ∀ f, (env'.insert? name ⟨(), name, .defined f⟩).isSome := by
  obtain ⟨hmay, rfl⟩ := Env.insert?_eq_some.mp h
  have hnew : env.modules.current.globals.get? name = none := Env.eq_none_of_mayReplace rfl hmay
  refine ⟨?_, fun f => ?_⟩
  · rw [Env.remove, Modules.drop_put hnew]
  · rw [Env.insert?, Modules.globals_put, Table.get?_insert, if_pos rfl]
    rfl

theorem checkDefinition_rejected {loc : Location} {name : String} {f : Function .written}
    {failure : Failure}
    (h : (checkDefinition fuel loc name f).run.run env = (.error failure, env')) : env' = env := by
  unfold checkDefinition at h
  rcases Declaring.bind_eq_error h with h | ⟨_, _, hget, h⟩
  · cases h
  cases hget
  rcases Declaring.bind_eq_error h with h | ⟨s, _, hcheck, h⟩
  · exact Declaring.ofCheck_eq_error h
  obtain ⟨-, rfl⟩ := Declaring.ofCheck_eq_ok hcheck
  split at h
  · split at h
    · rcases Declaring.bind_eq_error h with h | ⟨_, _, hbody, h⟩
      · exact checkFunction_eq_error h
      obtain ⟨-, rfl⟩ := checkItem_of_checkFunction hbody
      rcases Declaring.bind_eq_error h with h | ⟨_, _, _, h⟩
      · exact (register_eq_error h).1
      · cases h
    · cases h
      rfl
  · rcases Declaring.bind_eq_error h with h | ⟨_, env₁, hreg, h⟩
    · exact (register_eq_error h).1
    obtain ⟨hremove, hreplace⟩ := Env.insert?_declared (register_eq_ok hreg)
    rcases Declaring.bind_eq_error h with h | ⟨f', env₂, hcaught, h⟩
    · -- the body is rejected, and the declaration is withdrawn
      rw [ExceptT.run_tryCatch, StateT.run_bind] at h
      generalize hrun : (checkFunction fuel loc f).run.run env₁ = outcome at h
      obtain ⟨_ | _, env₂⟩ := outcome
      · cases checkFunction_eq_error hrun
        cases h
        exact hremove
      · cases h
    · -- the definition replaces the declaration, which cannot fail
      have hbody := Declaring.of_tryCatch_eq_ok (by
        intro failure env₃ hfail
        obtain ⟨_, _, _, hfail⟩ := Declaring.bind_eq_ok.mp hfail
        cases hfail) hcaught
      obtain ⟨-, rfl⟩ := checkItem_of_checkFunction hbody
      rcases Declaring.bind_eq_error h with h | ⟨_, _, _, h⟩
      · have hnone := (register_eq_error h).2
        have hsome := hreplace f'
        rw [hnone] at hsome
        cases hsome
      · cases h

/-- A rejected entry leaves the environment as it was. -/
theorem checkEntry_rejected {e : Entry .written} {failure : Failure}
    (h : (checkEntry fuel e).run.run env = (.error failure, env')) : env' = env := by
  unfold checkEntry at h
  split at h
  · exact checkDefinition_rejected h
  · rcases Declaring.bind_eq_error h with h | ⟨_, _, hget, h⟩
    · cases h
    cases hget
    rcases Declaring.bind_eq_error h with h | ⟨_, _, hcheck, h⟩
    · exact Declaring.ofCheck_eq_error h
    obtain ⟨-, rfl⟩ := Declaring.ofCheck_eq_ok hcheck
    rcases Declaring.bind_eq_error h with h | ⟨_, _, _, h⟩
    · exact (register_eq_error h).1
    · cases h

/-- A rejected unit has a rejected entry, and leaves the environment that the entries before it have
led to. -/
theorem checkUnit_rejected {failure : Failure} : ∀ {entries : List (Entry .written)} {env : Env},
    (checkUnit fuel entries).run.run env = (.error failure, env') →
      ∃ before e after es, entries = before ++ e :: after ∧
        (checkUnit fuel before).run.run env = (.ok es, env') ∧
        (checkEntry fuel e).run.run env' = (.error failure, env')
  | [], _, h => by cases h
  | e :: entries, _, h => by
    rw [checkUnit, List.mapM_cons] at h
    rcases Declaring.bind_eq_error h with h | ⟨e', env₁, he, h⟩
    · obtain rfl := checkEntry_rejected h
      exact ⟨[], e, entries, [], rfl, rfl, h⟩
    · rcases Declaring.bind_eq_error h with h | ⟨_, _, _, h⟩
      · obtain ⟨before, e₁, after, es, rfl, hbefore, hrejected⟩ := checkUnit_rejected h
        refine ⟨e :: before, e₁, after, e' :: es, rfl, ?_, hrejected⟩
        rw [checkUnit, List.mapM_cons]
        exact Declaring.bind_eq_ok.mpr
          ⟨e', env₁, he, Declaring.bind_eq_ok.mpr ⟨es, env', hbefore, rfl⟩⟩
      · cases h

/-- Checking a unit adds its entries up to the first one that is rejected. -/
theorem acceptsUnit_of_run {entries : List (Entry .written)}
    {outcome : Except Failure (List (Entry .checked))}
    (h : (checkUnit fuel entries).run.run env = (outcome, env')) :
    ∃ accepted rest es, entries = accepted ++ rest ∧ AcceptsUnit fuel env accepted es env' := by
  cases outcome with
  | ok es => exact ⟨entries, [], es, by simp, acceptsUnit_of_checkUnit h⟩
  | error failure =>
    obtain ⟨before, e, after, es, rfl, hbefore, -⟩ := checkUnit_rejected h
    exact ⟨before, e :: after, es, rfl, acceptsUnit_of_checkUnit hbefore⟩

/-- Checks that fail leave no trace. An entry that is rejected leaves the environment as it was,
with all its modules, its current path and its limits. If a unit is rejected, an entry of it is, and
the environment is the one that the entries before it lead to. -/
theorem rejected_checks_leave_no_trace (fuel : Nat) (env env' : Env) (failure : Failure) :
    (∀ e, (checkEntry fuel e).run.run env = (.error failure, env') → env' = env) ∧
    ∀ entries, (checkUnit fuel entries).run.run env = (.error failure, env') →
      ∃ before e after es, entries = before ++ e :: after ∧
        (checkUnit fuel before).run.run env = (.ok es, env') ∧
        (checkEntry fuel e).run.run env' = (.error failure, env') :=
  ⟨fun _ => checkEntry_rejected, fun _ => checkUnit_rejected⟩

/-- The environment in the module `m`, after the root has declared `f: () -> u64`. -/
def declaringEnv : Env :=
  let u64 : Written := .mk (.place {} rfl) (.atom (.int .u64))
  ((checkUnit 8 [⟨{}, "f", .declared (.returns .no u64)⟩]).run.run {}).2.enter ["m"]

/-- The type `byte`, and the definition `f = () -> u64 { return true; }`, which is rejected. -/
def wrongUnit : List (Entry .written) :=
  let u64 : Written := .mk (.place {} rfl) (.atom (.int .u64))
  [⟨{}, "byte", .integer ⟨.unsigned, .w8⟩⟩,
    ⟨{}, "f", .defined (.runs .no u64 [.ret {} (.mk (.place {} rfl) (.atom (.lit true)))])⟩]

/-- The definition of `f` leaves the declaration in the root, and the unit leaves `byte`. -/
theorem rejected_definition_keeps_declaration :
    (∃ failure env', (checkEntry 8 (wrongUnit.getLast (by decide))).run.run declaringEnv
        = (.error failure, env') ∧ env' = declaringEnv ∧ (env'.get? { name := "f" }).isSome) ∧
    ∃ failure env', (checkUnit 8 wrongUnit).run.run declaringEnv = (.error failure, env') ∧
      (env'.get? { name := "byte" }).isSome ∧
      ∃ before e after es, wrongUnit = before ++ e :: after ∧
        (checkUnit 8 before).run.run declaringEnv = (.ok es, env') ∧
        (checkEntry 8 e).run.run env' = (.error failure, env') := by
  have hentry : (checkEntry 8 (wrongUnit.getLast (by decide))).run.run declaringEnv
    = (.error _, _) := rfl
  have hunit : (checkUnit 8 wrongUnit).run.run declaringEnv = (.error _, _) := rfl
  exact ⟨⟨_, _, hentry, (rejected_checks_leave_no_trace 8 declaringEnv _ _).1 _ hentry, rfl⟩,
    _, _, hunit, by decide +kernel, (rejected_checks_leave_no_trace 8 declaringEnv _ _).2 _ hunit⟩

end DependentCore
