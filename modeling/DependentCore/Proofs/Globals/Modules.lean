import DependentCore.Globals.Modules
import Mathlib.Data.List.Basic

/-!
# Nested modules

What is relied on in a library of nested modules, operation by operation; and the tree of modules,
in which all of this holds.

* `LawfulModuleContext`: open modules are taken out of their parents and put back when they are
  closed,
* `ModuleTree.find?`: the global that a path and a name lead to,
* `Modules.get?_nil`, `Modules.get?_cons`: a name is looked up in the open modules, innermost first,
* `Modules.level`: the open modules of a tree, numbered from the root.
-/

namespace DependentCore

/-! ## Laws -/

/-- What is relied on in a library of nested modules. The open modules have numbers; that of the
root is `0`. -/
class LawfulModuleContext (M : Type) [ModuleContext M] where
  /-- The names of the open modules below the root, outermost first. -/
  opened : M → List String
  /-- The globals of the module that a path leads to from an open module, through submodules that
  are not open themselves. -/
  reached? : M → Nat → List String → Option Globals
  /-- The modules that are open are counted. -/
  depth_eq : ∀ ms : M, ModuleContext.depth ms = (opened ms).length
  /-- At first only the root is open. -/
  opened_root : opened ModuleContext.root = []
  /-- At first the root has neither globals nor submodules. -/
  reached?_root : ∀ path,
    reached? ModuleContext.root 0 path = if path = [] then some [] else none
  /-- The globals that are read are those of the innermost open module. -/
  reached?_current : ∀ ms, reached? ms (opened ms).length [] = some (ModuleContext.globals ms)
  /-- To replace globals leaves open what is open. -/
  opened_setGlobals : ∀ ms globals, opened (ModuleContext.setGlobals ms globals) = opened ms
  /-- The globals that are replaced are those of the innermost open module. -/
  reached?_setGlobals : ∀ ms globals path, ∀ k ≤ (opened ms).length,
    reached? (ModuleContext.setGlobals ms globals) k path
      = if k = (opened ms).length ∧ path = [] then some globals else reached? ms k path
  /-- A module that is opened becomes the innermost one. -/
  opened_open : ∀ ms name, opened (ModuleContext.openOrDefault ms name) = opened ms ++ [name]
  /-- It is taken out of the module around it. -/
  reached?_open : ∀ ms name path, ∀ k ≤ (opened ms).length,
    reached? (ModuleContext.openOrDefault ms name) k path
      = if k = (opened ms).length ∧ path.head? = some name then none else reached? ms k path
  /-- It keeps its globals and its submodules; one that is new has none. -/
  reached?_open_inner : ∀ ms name path,
    reached? (ModuleContext.openOrDefault ms name) ((opened ms).length + 1) path
      = (reached? ms (opened ms).length (name :: path)).or (if path = [] then some [] else none)
  /-- The root cannot be closed, and all other modules can. -/
  close?_eq_none_iff : ∀ ms : M, ModuleContext.close? ms = none ↔ opened ms = []
  /-- The innermost open module is the one that is closed. -/
  opened_close : ∀ {ms ms' : M}, ModuleContext.close? ms = some ms' →
    ∃ name, opened ms = opened ms' ++ [name]
  /-- It is put back into the module around it. -/
  reached?_close : ∀ {ms ms' : M} {name : String}, ModuleContext.close? ms = some ms' →
    opened ms = opened ms' ++ [name] → ∀ path, ∀ k ≤ (opened ms').length,
      reached? ms' k path = if k = (opened ms').length ∧ path.head? = some name
        then reached? ms (k + 1) path.tail else reached? ms k path
  /-- Modules are found from each of the open modules on, innermost first. -/
  find_eq : ∀ (ms : M) path, ModuleContext.find ms path
    = (List.range ((opened ms).length + 1)).reverse.filterMap (reached? ms · path)

/-! ## Following a path -/

/-- The global with a name in the module that a path leads to. -/
def ModuleTree.find? (m : ModuleTree) (path : List String) (name : String) :
    Option (Entry .checked) :=
  (m.descend? path).bind (·.globals.get? name)

namespace ModuleTree

variable (m : ModuleTree) (path : List String) (name child other : String)

@[simp]
theorem find?_nil : m.find? [] name = m.globals.get? name :=
  rfl

/-- A path is followed one child at a time. -/
theorem find?_cons :
    m.find? (child :: path) name = (m.children.get? child).bind (·.find? path name) :=
  Option.bind_assoc _ _ _

theorem find?_empty : empty.find? path name = none := by
  cases path <;> rfl

/-- A change of one name in the table of a module does not show below it. -/
theorem find?_setGlobals {globals : Globals} {e : Option (Entry .checked)}
    (hglobals : ∀ n, globals.get? n = if n = name then e else m.globals.get? n) :
    (m.setGlobals globals).find? path other
      = if path = [] ∧ other = name then e else m.find? path other := by
  cases path with
  | nil =>
    show globals.get? other = _
    simp [hglobals]
  | cons child path => simp [find?_cons, setGlobals, children]

/-- The table of the module that a path leads to. -/
def tableAt? (m : ModuleTree) (path : List String) : Option Globals :=
  (m.descend? path).map (·.globals)

theorem tableAt?_cons :
    m.tableAt? (child :: path) = (m.children.get? child).bind (·.tableAt? path) := by
  rw [tableAt?, descend?, Option.map_bind]
  rfl

theorem tableAt?_empty : empty.tableAt? path = if path = [] then some [] else none := by
  cases path <;> rfl

/-- Replacing the table of a module does not touch its children. -/
theorem tableAt?_setGlobals (globals : Globals) :
    (m.setGlobals globals).tableAt? path = if path = [] then some globals else m.tableAt? path := by
  cases path <;> rfl

theorem tableAt?_dropChild : (m.dropChild name).tableAt? path
    = if path.head? = some name then none else m.tableAt? path := by
  cases path with
  | nil => rfl
  | cons child path =>
    simp only [tableAt?_cons, dropChild, children, Table.get?_erase, List.head?_cons,
      Option.some.injEq]
    split <;> rfl

/-- What is found along the name of the new child is in the new child. -/
theorem tableAt?_putChild (sub : ModuleTree) : (m.putChild name sub).tableAt? path
    = if path.head? = some name then sub.tableAt? path.tail else m.tableAt? path := by
  cases path with
  | nil => rfl
  | cons child path =>
    simp only [tableAt?_cons, putChild, children, Table.get?_insert, List.head?_cons,
      Option.some.injEq, List.tail_cons]
    split <;> rfl

end ModuleTree

namespace Modules

/-! ## The current module -/

theorem current_modifyCurrent (ms : Modules) (f : ModuleTree → ModuleTree) :
    (ms.modifyCurrent f).current = f ms.current := by
  obtain ⟨root, _ | ⟨⟨inner, m⟩, outer⟩⟩ := ms <;> rfl

theorem path_modifyCurrent (ms : Modules) (f : ModuleTree → ModuleTree) :
    (ms.modifyCurrent f).path = ms.path := by
  obtain ⟨root, _ | ⟨⟨inner, m⟩, outer⟩⟩ := ms <;> rfl

theorem current_mem_enclosing (ms : Modules) : ms.current ∈ ms.enclosing := by
  obtain ⟨root, _ | ⟨⟨inner, m⟩, outer⟩⟩ := ms
  · exact List.mem_singleton_self root
  · exact .head _

/-- After a change of the current module, what is open is the changed module or was open before. -/
theorem mem_enclosing_modifyCurrent {ms : Modules} {f : ModuleTree → ModuleTree} {m : ModuleTree}
    (h : m ∈ (ms.modifyCurrent f).enclosing) : m = f ms.current ∨ m ∈ ms.enclosing := by
  obtain ⟨root, _ | ⟨⟨inner, m'⟩, outer⟩⟩ := ms
  · exact .inl (List.mem_singleton.mp h)
  · exact (List.mem_cons.mp h).imp id (.tail _)

theorem length_path (ms : Modules) : ms.path.length = ms.opened.length := by
  rw [path, List.length_reverse, List.length_map]

theorem length_modifyCurrent (ms : Modules) (f : ModuleTree → ModuleTree) :
    (ms.modifyCurrent f).opened.length = ms.opened.length := by
  rw [← length_path, path_modifyCurrent, length_path]

/-- The path of the current module ends with the name of the innermost open module. -/
theorem path_cons (root : ModuleTree) (name : String) (m : ModuleTree)
    (outer : List (String × ModuleTree)) :
    (⟨root, (name, m) :: outer⟩ : Modules).path = (⟨root, outer⟩ : Modules).path ++ [name] := by
  simp [path]

theorem put_eq (ms : Modules) (name : String) (e : Entry .checked) :
    ModuleContext.put ms name e
      = ms.modifyCurrent (·.setGlobals (ms.current.globals.insert name e)) :=
  rfl

/-! ## Looking up names -/

/-- The first open module that has a name gives its meaning, the innermost being asked first. -/
theorem get?_eq (ms : Modules) (g : GlobalName) :
    ModuleContext.get? ms g = ms.enclosing.findSome? (·.find? g.path g.name) := by
  show List.findSome? _ (ms.enclosing.filterMap (·.tableAt? g.path)) = _
  induction ms.enclosing with
  | nil => rfl
  | cons m outer ih =>
    rw [List.filterMap_cons, List.findSome?_cons, ModuleTree.find?, ← ih, ModuleTree.tableAt?]
    cases m.descend? g.path <;> rfl

theorem get?_nil (root : ModuleTree) (g : GlobalName) :
    ModuleContext.get? (⟨root, []⟩ : Modules) g = root.find? g.path g.name := by
  rw [get?_eq]
  show List.findSome? (·.find? g.path g.name) [root] = _
  rw [List.findSome?_cons]
  cases root.find? g.path g.name <;> rfl

theorem get?_cons (root : ModuleTree) (name : String) (m : ModuleTree)
    (outer : List (String × ModuleTree)) (g : GlobalName) :
    ModuleContext.get? (⟨root, (name, m) :: outer⟩ : Modules) g
      = (m.find? g.path g.name).or (ModuleContext.get? (⟨root, outer⟩ : Modules) g) := by
  rw [get?_eq, get?_eq]
  show List.findSome? (·.find? g.path g.name) (m :: (⟨root, outer⟩ : Modules).enclosing) = _
  rw [List.findSome?_cons]
  cases m.find? g.path g.name <;> rfl

/-- A global that is put into the current module is what its name refers to, and no other name means
something else than before. -/
theorem get?_put (ms : Modules) (name : String) (e : Entry .checked) (g : GlobalName) :
    ModuleContext.get? (ModuleContext.put ms name e) g
      = if g = { name := name } then some e else ModuleContext.get? ms g := by
  obtain ⟨path, other⟩ := g
  have hfind (m : ModuleTree) : (m.setGlobals (m.globals.insert name e)).find? path other
      = if path = [] ∧ other = name then some e else m.find? path other :=
    m.find?_setGlobals _ _ _ fun n => Table.get?_insert _ name n e
  obtain ⟨root, _ | ⟨⟨inner, m⟩, outer⟩⟩ := ms
  · simp only [put_eq, modifyCurrent, current, get?_nil, hfind, GlobalName.mk.injEq]
  · simp only [put_eq, modifyCurrent, current, get?_cons, hfind, GlobalName.mk.injEq]
    split <;> rfl

/-- A global of the current module is found by its name. -/
theorem get?_of_current {ms : Modules} {name : String} {e : Entry .checked}
    (h : ms.current.globals.get? name = some e) :
    ModuleContext.get? ms { name := name } = some e := by
  obtain ⟨root, _ | ⟨⟨inner, m⟩, outer⟩⟩ := ms
  · rw [get?_nil]
    exact h
  · have hm : m.find? [] name = some e := h
    rw [get?_cons, hm]
    rfl

/-! ## Opening and closing -/

/-- The innermost module is put back into the one around it. -/
theorem opened_eq_of_close? {ms ms' : Modules} (h : ms.close? = some ms') :
    ∃ name m outer, ms.opened = (name, m) :: outer ∧
      ms' = modifyCurrent (·.putChild name m) ⟨ms.root, outer⟩ := by
  obtain ⟨root, _ | ⟨⟨name, m⟩, outer⟩⟩ := ms
  · cases h
  · exact ⟨name, m, outer, rfl, (Option.some.inj h).symm⟩

/-- In the end no module is open. -/
theorem opened_closeUpTo : ∀ {n : Nat} {ms : Modules}, ms.opened.length ≤ n →
    (ModuleContext.closeUpTo n ms).opened = []
  | 0, _, h => List.eq_nil_of_length_eq_zero (Nat.le_zero.mp h)
  | n + 1, ⟨root, []⟩, _ => rfl
  | n + 1, ⟨root, (name, m) :: outer⟩, h => by
    have hlength : (modifyCurrent (·.putChild name m) ⟨root, outer⟩).opened.length ≤ n := by
      rw [length_modifyCurrent]
      exact Nat.le_of_succ_le_succ h
    show (ModuleContext.closeUpTo n (modifyCurrent (·.putChild name m) ⟨root, outer⟩)).opened = []
    exact opened_closeUpTo hlength

/-- The globals of a module that is entered step by step are those that its path leads to. -/
theorem globals_foldl_openChild : ∀ (path : List String) (ms : Modules),
    (path.foldl openChild ms).current.globals = (ms.current.tableAt? path).getD []
  | [], _ => rfl
  | name :: path, ms => by
    rw [List.foldl_cons, globals_foldl_openChild path, ModuleTree.tableAt?_cons]
    show (((ms.current.children.get? name).getD .empty).tableAt? path).getD [] = _
    cases ms.current.children.get? name with
    | none =>
      rw [Option.getD_none, ModuleTree.tableAt?_empty]
      split <;> rfl
    | some child => rfl

/-! ## The tree keeps to the laws -/

/-- The open modules, numbered from the root. -/
def level (root : ModuleTree) : List (String × ModuleTree) → Nat → ModuleTree
  | [], _ => root
  | (_, m) :: outer, k => if k = outer.length + 1 then m else level root outer k

theorem level_length : ∀ ms : Modules, level ms.root ms.opened ms.opened.length = ms.current
  | ⟨_, []⟩ => rfl
  | ⟨_, (_, _) :: _⟩ => if_pos rfl

/-- Only the innermost level is changed. -/
theorem level_modifyCurrent (ms : Modules) (f : ModuleTree → ModuleTree) {k : Nat}
    (hk : k ≤ ms.opened.length) : level (ms.modifyCurrent f).root (ms.modifyCurrent f).opened k
      = if k = ms.opened.length then f ms.current else level ms.root ms.opened k := by
  obtain ⟨root, _ | ⟨⟨inner, m⟩, outer⟩⟩ := ms
  · obtain rfl := Nat.le_zero.mp hk
    rfl
  · rw [modifyCurrent, level, level, List.length_cons]
    split <;> rfl

theorem filterMap_enclosing (f : ModuleTree → Option Globals) (root : ModuleTree) :
    ∀ opened : List (String × ModuleTree), (⟨root, opened⟩ : Modules).enclosing.filterMap f
      = (List.range (opened.length + 1)).reverse.filterMap fun k => f (level root opened k)
  | [] => rfl
  | (name, m) :: outer => by
    have houter : (List.range (outer.length + 1)).reverse.filterMap
          (fun k => f (level root ((name, m) :: outer) k))
        = (List.range (outer.length + 1)).reverse.filterMap fun k => f (level root outer k) := by
      refine List.filterMap_congr fun k hk => ?_
      rw [List.mem_reverse, List.mem_range] at hk
      rw [level, if_neg (Nat.ne_of_lt hk)]
    have hinner : level root ((name, m) :: outer) (outer.length + 1) = m := if_pos rfl
    rw [List.length_cons, List.range_succ, List.reverse_append, List.reverse_singleton,
      List.singleton_append, List.filterMap_cons, hinner, houter,
      ← filterMap_enclosing f root outer]
    exact List.filterMap_cons

instance : LawfulModuleContext Modules where
  opened := path
  reached? ms k p := (level ms.root ms.opened k).tableAt? p
  depth_eq ms := ms.length_path.symm
  opened_root := rfl
  reached?_root p := ModuleTree.tableAt?_empty p
  reached?_current ms := by
    rw [length_path, level_length]
    rfl
  opened_setGlobals ms globals := path_modifyCurrent ms _
  reached?_setGlobals ms globals p k hk := by
    rw [length_path] at hk ⊢
    show (level (ms.modifyCurrent _).root (ms.modifyCurrent _).opened k).tableAt? p = _
    rw [level_modifyCurrent ms _ hk]
    by_cases hcurrent : k = ms.opened.length
    · subst hcurrent
      rw [if_pos rfl, level_length, ModuleTree.tableAt?_setGlobals]
      simp
    · rw [if_neg hcurrent, if_neg fun h => hcurrent h.1]
  opened_open ms name := by
    show Modules.path ⟨_, (name, _) :: _⟩ = _
    rw [path_cons, path_modifyCurrent]
  reached?_open ms name p k hk := by
    rw [length_path] at hk ⊢
    have hinner : k ≠ (ms.modifyCurrent (·.dropChild name)).opened.length + 1 := by
      rw [length_modifyCurrent]
      omega
    show (level (ms.modifyCurrent (·.dropChild name)).root ((name, _) :: _) k).tableAt? p = _
    rw [level, if_neg hinner, level_modifyCurrent ms _ hk]
    by_cases hcurrent : k = ms.opened.length
    · subst hcurrent
      rw [if_pos rfl, level_length, ModuleTree.tableAt?_dropChild]
      simp
    · rw [if_neg hcurrent, if_neg fun h => hcurrent h.1]
  reached?_open_inner ms name p := by
    rw [length_path, level_length, ModuleTree.tableAt?_cons]
    show (level _ ((name, (ms.current.children.get? name).getD .empty) :: _) _).tableAt? p = _
    rw [level, length_modifyCurrent, if_pos rfl]
    cases ms.current.children.get? name with
    | none => exact ModuleTree.tableAt?_empty p
    | some child =>
      show child.tableAt? p = (child.tableAt? p).or _
      cases p with
      | nil => rfl
      | cons => exact Option.or_none.symm
  close?_eq_none_iff ms := by
    obtain ⟨root, _ | ⟨⟨name, m⟩, outer⟩⟩ := ms
    · exact iff_of_true rfl rfl
    · refine iff_of_false nofun fun h => ?_
      rw [path_cons] at h
      exact absurd h (by simp)
  opened_close {ms ms'} h := by
    obtain ⟨name, m, outer, hopened, rfl⟩ := opened_eq_of_close? h
    refine ⟨name, ?_⟩
    rw [path_modifyCurrent, ← path_cons ms.root name m outer, ← hopened]
  reached?_close {ms ms' name} h hname p k hk := by
    obtain ⟨name', m, outer, hopened, rfl⟩ := opened_eq_of_close? h
    have hpath : ms.path = (⟨ms.root, outer⟩ : Modules).path ++ [name'] := by
      rw [← path_cons ms.root name' m outer, ← hopened]
    rw [path_modifyCurrent, hpath] at hname
    obtain rfl : name' = name := by simpa using hname
    rw [path_modifyCurrent, length_path] at hk ⊢
    have hk : k ≤ outer.length := hk
    rw [level_modifyCurrent ⟨ms.root, outer⟩ _ hk, hopened, level, level,
      if_neg (by omega : k ≠ outer.length + 1)]
    by_cases hcurrent : k = outer.length
    · subst hcurrent
      have hlevel := level_length ⟨ms.root, outer⟩
      simp only at hlevel
      simp only [if_pos, true_and, hlevel, ModuleTree.tableAt?_putChild]
    · rw [if_neg hcurrent, if_neg fun h => hcurrent h.1]
  find_eq ms p := by
    rw [length_path]
    exact filterMap_enclosing (·.tableAt? p) ms.root ms.opened

end Modules

end DependentCore
