import DependentCore.Typing.Declare
import DependentCore.Proofs.Globals.Modules

/-!
# What an environment holds

A property of checked items that holds of everything the checker adds holds of every global of the
environment. `Modules.Stores` says that an entry is somewhere in the open modules or below them;
names refer only to such entries.

* `Env.All`: every stored item has a property,
* `Declaring.Keeps`: what a check that changes the environment keeps, whether it succeeds or not,
* `checkUnit_keeps`: checking a unit keeps `Env.All P`, provided that each item that is checked in
  such an environment has the property `P`,
* `Env.Built`: the environments that arise by checking entries in one module or another.
-/

namespace DependentCore

/-! ## Stored entries -/

/-- An entry is in the table of a module that is open or below an open one. -/
def Modules.Stores (ms : Modules) (e : Entry .checked) : Prop :=
  ∃ m ∈ ms.enclosing, ∃ path below name,
    m.descend? path = some below ∧ below.globals.get? name = some e

/-- What a name refers to is stored in one of the open modules. -/
theorem Modules.stores_of_get? {ms : Modules} {g : GlobalName} {e : Entry .checked}
    (h : ModuleContext.get? ms g = some e) : ms.Stores e := by
  rw [get?_eq] at h
  obtain ⟨m, hm, hfound⟩ := List.exists_of_findSome?_eq_some h
  obtain ⟨below, hbelow, hget⟩ := Option.bind_eq_some_iff.mp hfound
  exact ⟨m, hm, g.path, below, g.name, hbelow, hget⟩

/-- The empty tree of modules stores nothing. -/
theorem Modules.not_stores_empty (e : Entry .checked) : ¬({} : Modules).Stores e := by
  rintro ⟨m, hm, path, below, name, hbelow, hget⟩
  obtain rfl : m = .empty := by simpa [Modules.enclosing] using hm
  cases path with
  | nil =>
    cases hbelow
    simp [ModuleTree.empty, ModuleTree.globals] at hget
  | cons => simp [ModuleTree.descend?, ModuleTree.empty, ModuleTree.children] at hbelow

/-- What is stored after the table of the current module is replaced was stored before, or is in
the new table. -/
theorem Modules.stores_of_setGlobals {ms : Modules} {globals : Globals} {e : Entry .checked}
    (h : Stores (ModuleContext.setGlobals ms globals) e) :
    ms.Stores e ∨ ∃ name, globals.get? name = some e := by
  obtain ⟨m, hm, path, below, name, hbelow, hget⟩ := h
  -- Either `m` is the module that was changed, or it was open before.
  have hopen : m = ms.current.setGlobals globals ∨ m ∈ ms.enclosing :=
    mem_enclosing_modifyCurrent hm
  obtain rfl | hopen := hopen
  · cases path with
    | nil =>
      cases hbelow
      exact .inr ⟨name, hget⟩
    | cons child path =>
      exact .inl ⟨ms.current, ms.current_mem_enclosing, child :: path, below, name, hbelow, hget⟩
  · exact .inl ⟨m, hopen, path, below, name, hbelow, hget⟩

theorem Modules.stores_of_current {ms : Modules} {name : String} {e : Entry .checked}
    (h : ms.current.globals.get? name = some e) : ms.Stores e :=
  ⟨ms.current, ms.current_mem_enclosing, [], ms.current, name, rfl, h⟩

/-- Nothing is stored but the new global and what was stored before. -/
theorem Modules.stores_put {ms : Modules} {name : String} {new e : Entry .checked}
    (h : Stores (ModuleContext.put ms name new) e) : ms.Stores e ∨ e = new := by
  obtain h | ⟨other, hget⟩ := stores_of_setGlobals h
  · exact .inl h
  · rw [Table.get?_insert] at hget
    split at hget
    · exact .inr (Option.some.inj hget).symm
    · exact .inl (stores_of_current hget)

theorem Modules.stores_drop {ms : Modules} {name : String} {e : Entry .checked}
    (h : Stores (ModuleContext.drop ms name) e) : ms.Stores e := by
  obtain h | ⟨other, hget⟩ := stores_of_setGlobals h
  · exact h
  · rw [Table.get?_erase] at hget
    split at hget
    · cases hget
    · exact stores_of_current hget

/-! ### Opening and closing modules -/

/-- An entry is in the table of a module or of one below it. -/
def ModuleTree.Holds (m : ModuleTree) (e : Entry .checked) : Prop :=
  ∃ path below name, m.descend? path = some below ∧ below.globals.get? name = some e

theorem ModuleTree.Holds.of_child {m child : ModuleTree} {name : String} {e : Entry .checked}
    (h : child.Holds e) (hchild : m.children.get? name = some child) : m.Holds e := by
  obtain ⟨path, below, key, hbelow, hget⟩ := h
  exact ⟨name :: path, below, key, by simp [descend?, hchild, hbelow], hget⟩

theorem ModuleTree.not_holds_empty (e : Entry .checked) : ¬ModuleTree.empty.Holds e :=
  fun h => Modules.not_stores_empty e ⟨.empty, by simp [Modules.enclosing], h⟩

/-- What is held after a child is put in was held before or is held by the child. -/
theorem ModuleTree.holds_of_putChild {m child : ModuleTree} {name : String} {e : Entry .checked}
    (h : (m.putChild name child).Holds e) : m.Holds e ∨ child.Holds e := by
  obtain ⟨path, below, key, hbelow, hget⟩ := h
  cases path with
  | nil =>
    cases hbelow
    exact .inl ⟨[], m, key, rfl, hget⟩
  | cons next path =>
    obtain ⟨below', hnext, hbelow⟩ := Option.bind_eq_some_iff.mp hbelow
    rw [putChild, children, Table.get?_insert] at hnext
    split at hnext
    · cases hnext
      exact .inr ⟨path, below, key, hbelow, hget⟩
    · exact .inl (.of_child ⟨path, below, key, hbelow, hget⟩ hnext)

theorem ModuleTree.holds_of_dropChild {m : ModuleTree} {name : String} {e : Entry .checked}
    (h : (m.dropChild name).Holds e) : m.Holds e := by
  obtain ⟨path, below, key, hbelow, hget⟩ := h
  cases path with
  | nil =>
    cases hbelow
    exact ⟨[], m, key, rfl, hget⟩
  | cons next path =>
    obtain ⟨below', hnext, hbelow⟩ := Option.bind_eq_some_iff.mp hbelow
    rw [dropChild, children, Table.get?_erase] at hnext
    split at hnext
    · cases hnext
    · exact .of_child ⟨path, below, key, hbelow, hget⟩ hnext

/-- Putting the innermost module back adds nothing. -/
theorem Modules.stores_of_close {ms ms' : Modules} {e : Entry .checked}
    (hclose : ms.close? = some ms') (h : ms'.Stores e) : ms.Stores e := by
  obtain ⟨name, inner, outer, hopened, rfl⟩ := opened_eq_of_close? hclose
  have henclosing : ms.enclosing = inner :: enclosing ⟨ms.root, outer⟩ := by
    rw [enclosing, hopened]
    rfl
  have houter {m : ModuleTree} (hm : m ∈ enclosing ⟨ms.root, outer⟩) : m ∈ ms.enclosing := by
    rw [henclosing]
    exact .tail _ hm
  obtain ⟨m, hm, h⟩ := h
  obtain rfl | hm := mem_enclosing_modifyCurrent hm
  · obtain h | h := ModuleTree.holds_of_putChild h
    · exact ⟨_, houter (current_mem_enclosing _), h⟩
    · exact ⟨inner, henclosing ▸ .head _, h⟩
  · exact ⟨m, houter hm, h⟩

/-- Closing modules moves them, and stores nothing new. -/
theorem Modules.stores_of_closeUpTo {e : Entry .checked} : ∀ {n : Nat} {ms : Modules},
    Stores (ModuleContext.closeUpTo n ms) e → ms.Stores e
  | 0, _, h => h
  | n + 1, ms, h => by
    rw [ModuleContext.closeUpTo] at h
    split at h
    · exact h
    · next hclose => exact stores_of_close hclose (stores_of_closeUpTo h)

theorem Modules.stores_of_openChild {ms : Modules} {name : String} {e : Entry .checked}
    (h : (ms.openChild name).Stores e) : ms.Stores e := by
  have hcurrent : ms.current ∈ ms.enclosing := ms.current_mem_enclosing
  obtain ⟨m, hm, h⟩ := h
  -- Either `m` is the module that was opened or the one around it, or it was open before.
  have hopen : m = (ms.current.children.get? name).getD .empty ∨ m = ms.current.dropChild name ∨
      m ∈ ms.enclosing :=
    (List.mem_cons.mp hm).imp id mem_enclosing_modifyCurrent
  obtain rfl | rfl | hm := hopen
  · cases hchild : ms.current.children.get? name with
    | none =>
      rw [hchild] at h
      exact absurd h (ModuleTree.not_holds_empty e)
    | some child =>
      rw [hchild] at h
      exact ⟨ms.current, hcurrent, ModuleTree.Holds.of_child h hchild⟩
  · exact ⟨ms.current, hcurrent, ModuleTree.holds_of_dropChild h⟩
  · exact ⟨m, hm, h⟩

/-- A change of the current module stores nothing new. -/
theorem Modules.stores_of_enter {ms : Modules} {path : List String} {e : Entry .checked}
    (h : Stores (ModuleContext.enter ms path) e) : ms.Stores e := by
  refine stores_of_closeUpTo (?_ : Stores (ModuleContext.closeAll ms) e)
  unfold ModuleContext.enter at h
  generalize ModuleContext.closeAll ms = start at h ⊢
  induction path generalizing start with
  | nil => exact h
  | cons name path ih => exact stores_of_openChild (ih _ h)

/-- Every item that an environment stores has a property. -/
def Env.All (P : Item .checked → Prop) (env : Env) : Prop :=
  ∀ e, env.modules.Stores e → P e.item

section

variable {P : Item .checked → Prop} {env : Env}

theorem Env.all_of_modules_eq_empty (h : env.modules = {}) : env.All P := by
  intro e he
  rw [h] at he
  exact absurd he (Modules.not_stores_empty e)

theorem Env.All.of_get? (hall : env.All P) {g : GlobalName} {e : Entry .checked}
    (h : env.get? g = some e) : P e.item :=
  hall e (Modules.stores_of_get? h)

theorem Env.get?_of_function? {g : GlobalName} {f : Function .checked}
    (h : env.function? g = some f) : ∃ mark name, env.get? g = some ⟨mark, name, .defined f⟩ := by
  unfold Env.function? at h
  split at h
  · next heq =>
    cases h
    exact ⟨_, _, heq⟩
  · cases h

theorem Env.All.of_function? (hall : env.All P) {g : GlobalName} {f : Function .checked}
    (h : env.function? g = some f) : P (.defined f) := by
  obtain ⟨_, _, hget⟩ := Env.get?_of_function? h
  exact hall.of_get? hget

/-- What holds of all globals is kept if it holds of the one that is added. -/
theorem Env.All.insert? (hall : env.All P) {name : String} {e : Entry .checked} {env' : Env}
    (he : P e.item) (h : env.insert? name e = some env') : env'.All P := by
  obtain ⟨-, rfl⟩ := Env.insert?_eq_some.mp h
  intro e' he'
  obtain he' | rfl := Modules.stores_put he'
  · exact hall e' he'
  · exact he

theorem Env.All.remove (hall : env.All P) (name : String) : (env.remove name).All P :=
  fun e he => hall e (Modules.stores_drop he)

theorem Env.All.enter (hall : env.All P) (path : List String) : (env.enter path).All P :=
  fun e he => hall e (Modules.stores_of_enter he)

end

/-! ## Checks that change the environment -/

/-- From an environment with the property `I`, a check leaves one with `I`, also if it fails; and
what it returns, if it succeeds, has the property `Q`. -/
def Declaring.Keeps {α : Type} (I : Env → Prop) (m : Declaring α) (Q : α → Prop) : Prop :=
  ∀ env, I env → I (m.run.run env).2 ∧ ∀ a, (m.run.run env).1 = .ok a → Q a

namespace Declaring.Keeps

variable {α β : Type} {I : Env → Prop} {Q : α → Prop} {R : β → Prop}

theorem pure {a : α} (h : Q a) : Keeps I (pure a) Q := by
  rintro env henv
  refine ⟨henv, fun b hb => ?_⟩
  cases hb
  exact h

theorem throw {failure : Failure} : Keeps I (throw failure : Declaring α) Q :=
  fun _ henv => ⟨henv, fun _ hb => by cases hb⟩

theorem get : Keeps I (get : Declaring Env) I := by
  intro env henv
  refine ⟨henv, fun b hb => ?_⟩
  cases hb
  exact henv

theorem set {env' : Env} (h : I env') : Keeps I (set env' : Declaring Unit) fun _ => True :=
  fun _ _ => ⟨h, fun _ _ => trivial⟩

/-- A check does not change the environment. -/
theorem ofCheck {c : Check α} (h : ∀ a, c = .ok a → Q a) : Keeps I (ofCheck c) Q :=
  fun _ henv => ⟨henv, h⟩

/-- An invariant is kept step by step. -/
theorem bind {m : Declaring α} {f : α → Declaring β} (hm : Keeps I m Q)
    (hf : ∀ a, Q a → Keeps I (f a) R) : Keeps I (m >>= f) R := by
  intro env henv
  obtain ⟨hinv, hret⟩ := hm env henv
  rw [ExceptT.run_bind, StateT.run_bind]
  generalize m.run.run env = outcome at hinv hret ⊢
  obtain ⟨_ | a, env'⟩ := outcome
  · exact ⟨hinv, fun _ hb => by cases hb⟩
  · exact hf a (hret a rfl) env' hinv

/-- The handler runs in the environment that the failed check left behind. -/
theorem tryCatch {m : Declaring α} {handle : Failure → Declaring α} (hm : Keeps I m Q)
    (hh : ∀ failure, Keeps I (handle failure) Q) : Keeps I (tryCatch m handle) Q := by
  intro env henv
  obtain ⟨hinv, hret⟩ := hm env henv
  rw [ExceptT.run_tryCatch, StateT.run_bind]
  generalize m.run.run env = outcome at hinv hret ⊢
  obtain ⟨failure | a, env'⟩ := outcome
  · exact hh failure env' hinv
  · exact ⟨hinv, hret⟩

theorem mapM {γ : Type} {f : γ → Declaring α} : ∀ {xs : List γ},
    (∀ x ∈ xs, Keeps I (f x) Q) → Keeps I (xs.mapM f) (fun as => ∀ a ∈ as, Q a)
  | [], _ => by
    rw [List.mapM_nil]
    exact pure (by simp)
  | x :: xs, h => by
    rw [List.mapM_cons]
    refine bind (h x (by simp)) fun a ha => ?_
    refine bind (mapM fun y hy => h y (by simp [hy])) fun as has => pure ?_
    simpa [ha] using has

end Declaring.Keeps

/-! ## Checking a unit -/

section

variable {P : Item .checked → Prop} {W : Item .written → Prop} {fuel : Nat}

theorem register_keeps {e : Entry .checked} (h : P e.item) :
    Declaring.Keeps (Env.All P) (register e) fun _ => True := by
  unfold register
  refine .bind .get fun env henv => ?_
  split
  · next env' hinsert => exact .set (henv.insert? h hinsert)
  · exact .throw

theorem withdraw_keeps {name : String} :
    Declaring.Keeps (Env.All P) (withdraw name) fun _ => True :=
  fun _ henv => ⟨henv.remove name, fun _ _ => trivial⟩

/-- In environments where every item has the property `P`, items with the property `W` are checked
to items with the property `P`. -/
def Establishes (fuel : Nat) (W : Item .written → Prop) (P : Item .checked → Prop) : Prop :=
  ∀ env loc item item', env.All P → W item → checkItem fuel env loc item = .ok item' → P item'

/-- A definition keeps what holds of all globals. The declaration that is made for the time of
checking has the property as well. -/
theorem checkDefinition_keeps (hP : Establishes fuel W P) {loc : Location} {name : String}
    {f : Function .written} (hf : W (.defined f)) (hs : W (.declared f.signature)) :
    Declaring.Keeps (Env.All P) (checkDefinition fuel loc name f) fun e => P e.item := by
  have hbody : Declaring.Keeps (Env.All P) (checkFunction fuel loc f)
      fun f' => P (.defined f') := by
    refine .bind .get fun env henv => .ofCheck fun f' hf' => ?_
    exact hP env loc _ _ henv hf (by simp only [checkItem, hf']; rfl)
  unfold checkDefinition
  refine .bind .get fun env henv => ?_
  refine .bind (Q := fun s => P (.declared s)) (.ofCheck fun s hs' => ?_) fun s hsP => ?_
  · exact hP env loc _ _ henv hs (by simp only [checkItem, hs']; rfl)
  · split
    · split
      · refine .bind hbody fun f' hf' => ?_
        exact .bind (register_keeps hf') fun _ _ => .pure hf'
      · exact .throw
    · refine .bind (register_keeps hsP) fun _ _ => ?_
      refine .bind (.tryCatch hbody fun failure => ?_) fun f' hf' => ?_
      · exact .bind withdraw_keeps fun _ _ => .throw
      · exact .bind (register_keeps hf') fun _ _ => .pure hf'

/-- Checking an entry keeps what holds of all globals, and establishes it of the new one. -/
theorem checkEntry_keeps (hP : Establishes fuel W P)
    (hsig : ∀ f, W (.defined f) → W (.declared f.signature)) {e : Entry .written} (he : W e.item) :
    Declaring.Keeps (Env.All P) (checkEntry fuel e) fun e' => P e'.item := by
  unfold checkEntry
  split
  · next f hf =>
    rw [hf] at he
    exact checkDefinition_keeps hP he (hsig f he)
  · refine .bind .get fun env henv => ?_
    refine .bind (Q := P) (.ofCheck fun item' hitem' => hP env e.mark _ item' henv he hitem')
      fun item' hitem' => ?_
    exact .bind (register_keeps hitem') fun _ _ => .pure hitem'

/-- Checking a unit keeps a property of all stored items, if checking an item establishes it. -/
theorem checkUnit_keeps (hP : Establishes fuel W P)
    (hsig : ∀ f, W (.defined f) → W (.declared f.signature)) {entries : List (Entry .written)}
    (hW : ∀ e ∈ entries, W e.item) :
    Declaring.Keeps (Env.All P) (checkUnit fuel entries) fun es => ∀ e ∈ es, P e.item :=
  .mapM fun e he => checkEntry_keeps hP hsig (hW e he)

/-- The environments that arise from an empty one by checking entries with the property `W`, with or
without success, and by going from one module to another. Limits may be changed at any time. -/
inductive Env.Built (W : Item .written → Prop) : Env → Prop where
  | empty {env} : env.modules = {} → Built W env
  | check {env fuel e outcome env'} : Built W env → W e.item →
    (checkEntry fuel e).run.run env = (outcome, env') → Built W env'
  | enter {env path} : Built W env → Built W (env.enter path)
  | limits {env env'} : Built W env → env'.modules = env.modules → Built W env'

/-- What is checked in environments with a property has the property, in all of them. -/
theorem Env.Built.all (hP : ∀ fuel, Establishes fuel W P)
    (hsig : ∀ f, W (.defined f) → W (.declared f.signature)) {env : Env} (h : env.Built W) :
    env.All P := by
  induction h with
  | empty hempty => exact Env.all_of_modules_eq_empty hempty
  | @check env fuel e outcome env' _ he hrun ih =>
    have hkeeps := (checkEntry_keeps (hP fuel) hsig he env ih).1
    rw [hrun] at hkeeps
    exact hkeeps
  | enter _ ih => exact ih.enter _
  | limits _ hmodules ih =>
    intro e he
    rw [hmodules] at he
    exact ih e he

/-- A unit is checked entry by entry. -/
theorem Env.Built.checkUnit {env : Env} (h : env.Built W) {entries : List (Entry .written)}
    (hW : ∀ e ∈ entries, W e.item) : ((checkUnit fuel entries).run.run env).2.Built W := by
  have hentry (e : Entry .written) (he : e ∈ entries) :
      Declaring.Keeps (Env.Built W) (checkEntry fuel e) fun _ => True :=
    fun _ henv => ⟨.check henv (hW e he) rfl, fun _ _ => trivial⟩
  exact (Declaring.Keeps.mapM hentry env h).1

end

end DependentCore
