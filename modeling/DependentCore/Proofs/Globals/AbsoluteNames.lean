import DependentCore.Globals.Env
import DependentCore.Proofs.Globals.Modules
import Mathlib.Data.Finmap

/-!
# Absolute names

An environment is built on a library of nested modules, which takes open modules out of their
parents and puts them back when they are closed. To its users an environment is a flat table: one
map from absolute names, that is a path from the root and a name, to globals, and the path of the
current module.

* `FlatTable`, `FlatTable.apply`: the table, and what the operations do to it,
* `FlatTable.Finds`: how a relative name is looked up in the table,
* `ModuleContext.Represents.openOrDefault`, `ModuleContext.Represents.close`: a module that is
  opened or closed changes the path of the table only,
* `Env.represents_apply`: each operation on an environment is the operation on the table.
-/

namespace DependentCore

/-! ## The table -/

/-- What an environment stands for: a map from absolute names to globals, and the path of the
current module. -/
structure FlatTable where
  path : List String := []
  entries : Finmap fun _ : List String × String => Entry .checked := ∅

/-- The operations that change an environment. -/
inductive Command where
  | enter (path : List String)
  | insert (name : String) (e : Entry .checked)
  | remove (name : String)

/-- Carry out a command. An insertion that is refused changes nothing. -/
def Env.apply {M : Type} [ModuleContext M] (env : Env M) : Command → Env M
  | .enter path => env.enter path
  | .insert name e => (env.insert? name e).getD env
  | .remove name => env.remove name

namespace FlatTable

/-- Whether a global may be put under a name of the current module: the name is free, or a
declaration is replaced by a definition. -/
def admits (t : FlatTable) (name : String) (e : Entry .checked) : Bool :=
  match t.entries.lookup (t.path, name), e.item with
  | none, _ => true
  | some ⟨_, _, .declared _⟩, .defined _ => true
  | _, _ => false

/-- What a command means for the table. -/
def apply (t : FlatTable) : Command → FlatTable
  | .enter path => { t with path := path }
  | .insert name e =>
    if t.admits name e then { t with entries := t.entries.insert (t.path, name) e } else t
  | .remove name => { t with entries := t.entries.erase (t.path, name) }

/-- A relative name is found from the first `k` modules of the current path on. There the path of
the name must not start with the next module of the current path, which is open. -/
def FindsFrom (t : FlatTable) (g : GlobalName) (k : Nat) (e : Entry .checked) : Prop :=
  (∀ child, t.path[k]? = some child → g.path.head? ≠ some child) ∧
    t.entries.lookup (t.path.take k ++ g.path, g.name) = some e

/-- A relative name is looked up from the current module, then from the one around it, and so on. -/
def Finds (t : FlatTable) (g : GlobalName) (e : Entry .checked) : Prop :=
  ∃ k ≤ t.path.length, t.FindsFrom g k e ∧
    ∀ j, k < j → j ≤ t.path.length → ∀ e', ¬t.FindsFrom g j e'

variable {t : FlatTable} {g : GlobalName} {k : Nat} {e : Entry .checked}

/-- From the current module on, a relative name is found below the current path. -/
theorem findsFrom_current :
    t.FindsFrom g t.path.length e ↔ t.entries.lookup (t.path ++ g.path, g.name) = some e := by
  rw [FindsFrom, List.getElem?_eq_none (Nat.le_refl _), List.take_length]
  exact and_iff_right nofun

/-- What is found depends on the first modules of the path and the one that is open next. -/
theorem findsFrom_congr {path : List String} (hnext : path[k]? = t.path[k]?)
    (htake : path.take k = t.path.take k) :
    FindsFrom { t with path := path } g k e ↔ t.FindsFrom g k e := by
  rw [FindsFrom, FindsFrom, hnext, htake]

/-- Around the current module, the name of a global of the current module is not found by a path:
this would lead through the module that is open next. -/
theorem path_ne_of_not_open (hk : k < t.path.length)
    (hopen : ∀ child, t.path[k]? = some child → g.path.head? ≠ some child) :
    t.path.take k ++ g.path ≠ t.path := by
  intro hpath
  have hdrop : g.path = t.path.drop k := by
    have hsplit := hpath.trans (List.take_append_drop k t.path).symm
    exact List.append_cancel_left hsplit
  refine hopen t.path[k] (List.getElem?_eq_getElem hk) ?_
  rw [hdrop, List.head?_drop, List.getElem?_eq_getElem hk]

end FlatTable

/-! ## Modules that stand for a table -/

section
variable {M : Type} [ModuleContext M] [LawfulModuleContext M] {ms : M} {t : FlatTable}

open LawfulModuleContext

/-- The modules stand for the table: from each open module on, relative names are found as in the
table. -/
structure ModuleContext.Represents (ms : M) (t : FlatTable) : Prop where
  path : opened ms = t.path
  finds : ∀ k ≤ t.path.length, ∀ g e,
    (reached? ms k g.path).bind (·.get? g.name) = some e ↔ t.FindsFrom g k e

theorem ModuleContext.represents_root : Represents (root : M) {} where
  path := opened_root
  finds k hk g e := by
    obtain rfl := Nat.le_zero.mp hk
    have hnone : (reached? (root : M) 0 g.path).bind (·.get? g.name) = none := by
      rw [reached?_root]
      split <;> rfl
    rw [hnone]
    exact iff_of_false nofun fun h => nomatch h.2

namespace ModuleContext.Represents

/-- A module that is opened is taken out of the current one. If there was none, the new one has no
globals. So only the path changes. -/
theorem openOrDefault (h : Represents ms t) (name : String) :
    Represents (openOrDefault ms name) { t with path := t.path ++ [name] } := by
  have hlen : (opened ms).length = t.path.length := by rw [h.path]
  refine ⟨by rw [opened_open, h.path], fun k hk g e => ?_⟩
  rw [List.length_append, List.length_singleton] at hk
  rcases Nat.lt_or_ge t.path.length k with hinner | hk
  · -- from the new module on
    obtain rfl : k = t.path.length + 1 := by omega
    have hbelow := h.finds t.path.length (Nat.le_refl _)
      { path := name :: g.path, name := g.name } e
    rw [FlatTable.findsFrom_current] at hbelow
    have hfinds := FlatTable.findsFrom_current (t := { t with path := t.path ++ [name] })
      (g := g) (e := e)
    rw [List.length_append, List.length_singleton, List.append_assoc, List.singleton_append]
      at hfinds
    rw [hfinds, ← hbelow, ← hlen, reached?_open_inner]
    cases reached? ms (opened ms).length (name :: g.path) with
    | some globals => rfl
    | none =>
      show (if g.path = [] then some [] else none : Option Globals).bind _ = some e ↔ none = some e
      split <;> simp
  · rw [reached?_open _ _ _ _ (hlen ▸ hk), hlen]
    rcases Nat.lt_or_eq_of_le hk with houter | rfl
    · -- from one of the outer modules on, nothing has changed
      rw [if_neg (fun hc => Nat.ne_of_lt houter hc.1), h.finds k hk]
      refine (FlatTable.findsFrom_congr ?_ ?_).symm
      · exact List.getElem?_append_left houter
      · exact List.take_append_of_le_length hk
    · -- from the module that was current on, the new one is not found
      have hnext : (t.path ++ [name])[t.path.length]? = some name := List.getElem?_concat_length
      have htake : (t.path ++ [name]).take t.path.length = t.path := List.take_left
      have hfinds : FlatTable.FindsFrom { t with path := t.path ++ [name] } g t.path.length e ↔
          g.path.head? ≠ some name ∧ t.entries.lookup (t.path ++ g.path, g.name) = some e := by
        rw [FlatTable.FindsFrom, hnext, htake]
        exact and_congr_left' (by simp)
      rw [hfinds]
      by_cases hhead : g.path.head? = some name
      · simp [hhead]
      · rw [if_neg fun hc => hhead hc.2, h.finds _ hk, FlatTable.findsFrom_current]
        exact (and_iff_right hhead).symm

/-- A module that is closed is put back into the one around it. So only the path changes. -/
theorem close (h : Represents ms t) {ms' : M} (hclose : close? ms = some ms') :
    Represents ms' { t with path := opened ms' } := by
  obtain ⟨name, hname⟩ := opened_close hclose
  have hpath : t.path = opened ms' ++ [name] := h.path.symm.trans hname
  have hlen : t.path.length = (opened ms').length + 1 := by
    rw [hpath, List.length_append, List.length_singleton]
  refine ⟨rfl, fun k hk g e => ?_⟩
  have hk : k ≤ (opened ms').length := hk
  rw [reached?_close hclose hname _ _ hk]
  rcases Nat.lt_or_eq_of_le hk with houter | rfl
  · rw [if_neg (fun hc => Nat.ne_of_lt houter hc.1), h.finds k (by omega)]
    refine (FlatTable.findsFrom_congr ?_ ?_).symm
    · rw [hpath, List.getElem?_append_left houter]
    · rw [hpath, List.take_append_of_le_length hk]
  · have hcurrent := FlatTable.findsFrom_current (t := { t with path := opened ms' }) (g := g)
      (e := e)
    rw [hcurrent]
    by_cases hhead : g.path.head? = some name
    · -- the path leads into the module that was closed
      obtain ⟨rest, hrest⟩ := List.head?_eq_some_iff.mp hhead
      have hinner := h.finds t.path.length (Nat.le_refl _) { path := rest, name := g.name } e
      rw [FlatTable.findsFrom_current, hlen, hpath, List.append_assoc, List.singleton_append]
        at hinner
      rw [if_pos ⟨rfl, hhead⟩, hrest, List.tail_cons, hinner]
    · have houter := h.finds (opened ms').length (by omega) g e
      have hnext : t.path[(opened ms').length]? = some name := by
        rw [hpath]
        exact List.getElem?_concat_length
      have htake : t.path.take (opened ms').length = opened ms' := by
        rw [hpath]
        exact List.take_left
      rw [if_neg fun hc => hhead hc.2, houter, FlatTable.FindsFrom, hnext, htake]
      exact and_iff_right fun child hchild => Option.some.inj hchild ▸ hhead

/-- The loop that closes modules ends at the root. -/
theorem closeUpTo {n : Nat} : ∀ {ms : M} {t : FlatTable}, Represents ms t → t.path.length ≤ n →
    Represents (closeUpTo n ms) { t with path := [] } := by
  induction n with
  | zero =>
    intro ms t h hn
    have hroot : t = { t with path := [] } := by
      rw [← List.length_eq_zero_iff.mp (Nat.le_zero.mp hn)]
    rw [← hroot]
    exact h
  | succ n ih =>
    intro ms t h hn
    rw [ModuleContext.closeUpTo]
    cases hclose : close? ms with
    | none =>
      have hroot : t = { t with path := [] } := by
        rw [← (close?_eq_none_iff ms).mp hclose, h.path]
      rw [← hroot]
      exact h
    | some ms' =>
      obtain ⟨name, hname⟩ := opened_close hclose
      have hlen : t.path.length = (opened ms').length + 1 := by
        rw [← h.path, hname, List.length_append, List.length_singleton]
      have hn' : (opened ms').length ≤ n := by omega
      exact ih (t := { t with path := opened ms' }) (h.close hclose) hn'

theorem closeAll (h : Represents ms t) : Represents (closeAll ms) { t with path := [] } :=
  h.closeUpTo (by rw [depth_eq, h.path])

theorem enter (h : Represents ms t) (path : List String) :
    Represents (enter ms path) { t with path := path } := by
  have hfold (path : List String) {ms : M} {t : FlatTable} (h : Represents ms t) :
      Represents (path.foldl ModuleContext.openOrDefault ms) { t with path := t.path ++ path } := by
    induction path generalizing ms t with
    | nil => simpa using h
    | cons name path ih => simpa using ih (h.openOrDefault name)
  exact hfold path h.closeAll

theorem globals (h : Represents ms t) (name : String) :
    (globals ms).get? name = t.entries.lookup (t.path, name) := by
  refine Option.ext fun e => ?_
  have hcurrent := h.finds t.path.length (Nat.le_refl _) { name := name } e
  rw [FlatTable.findsFrom_current, List.append_nil, ← h.path, reached?_current, h.path] at hcurrent
  exact hcurrent

/-- A change of one name in the table of the current module is a change of one absolute name. -/
theorem setGlobals (h : Represents ms t) {f : Globals → Globals} {name : String}
    {new : Option (Entry .checked)}
    {entries : Finmap fun _ : List String × String => Entry .checked}
    (hf : ∀ n, (f (ModuleContext.globals ms)).get? n
      = if n = name then new else (ModuleContext.globals ms).get? n)
    (hentries : ∀ p n, entries.lookup (p, n)
      = if p = t.path ∧ n = name then new else t.entries.lookup (p, n)) :
    Represents (setGlobals ms (f (ModuleContext.globals ms))) { t with entries := entries } := by
  refine ⟨(opened_setGlobals _ _).trans h.path, fun k hk g e => ?_⟩
  have hlen : (opened ms).length = t.path.length := by rw [h.path]
  rw [reached?_setGlobals _ _ _ _ (hlen ▸ hk), hlen]
  by_cases hcurrent : k = t.path.length ∧ g.path = []
  · obtain ⟨rfl, hpath⟩ := hcurrent
    have hfinds := FlatTable.findsFrom_current (t := { t with entries := entries })
      (g := g) (e := e)
    rw [if_pos ⟨rfl, hpath⟩, hfinds, Option.bind_some, hf, hpath, List.append_nil, hentries,
      h.globals]
    simp
  · -- no other name that is found is the one that has changed
    rw [if_neg hcurrent, h.finds k hk]
    refine and_congr_right fun hopen => ?_
    have hother : t.path.take k ++ g.path ≠ t.path := by
      rcases Nat.lt_or_eq_of_le hk with hk | rfl
      · exact FlatTable.path_ne_of_not_open hk hopen
      · rw [List.take_length, ne_eq, List.append_right_eq_self]
        exact fun hpath => hcurrent ⟨rfl, hpath⟩
    rw [hentries, if_neg fun hc => hother hc.1]

theorem put (h : Represents ms t) (name : String) (e : Entry .checked) :
    Represents (put ms name e) { t with entries := t.entries.insert (t.path, name) e } := by
  refine h.setGlobals (f := (·.insert name e)) (fun n => Table.get?_insert _ _ _ _) fun p n => ?_
  split
  · next heq => rw [heq.1, heq.2, Finmap.lookup_insert]
  · next hne => rw [Finmap.lookup_insert_of_ne _ (by simpa using hne)]

theorem drop (h : Represents ms t) (name : String) :
    Represents (drop ms name) { t with entries := t.entries.erase (t.path, name) } := by
  refine h.setGlobals (f := (·.erase name)) (fun n => Table.get?_erase _ _ _) fun p n => ?_
  split
  · next heq => rw [heq.1, heq.2, Finmap.lookup_erase]
  · next hne => rw [Finmap.lookup_erase_ne (by simpa using hne)]

end ModuleContext.Represents

/-- A search that goes down from a number finds the value at the highest one that has any. -/
theorem findSome?_range_eq_some_iff {α β : Type} {f : Nat → Option α} {h : α → Option β} {b : β}
    (d : Nat) : ((List.range (d + 1)).reverse.filterMap f).findSome? h = some b ↔
      ∃ k ≤ d, (f k).bind h = some b ∧ ∀ j, k < j → j ≤ d → ∀ b', (f j).bind h ≠ some b' := by
  have hstep (d : Nat) : ((List.range (d + 1)).reverse.filterMap f).findSome? h
      = ((f d).bind h).or (((List.range d).reverse.filterMap f).findSome? h) := by
    rw [List.range_succ, List.reverse_append, List.reverse_singleton, List.singleton_append,
      List.filterMap_cons]
    cases f d with
    | none => rfl
    | some a =>
      rw [List.findSome?_cons, Option.bind_some]
      cases h a <;> rfl
  induction d with
  | zero =>
    rw [hstep, List.range_zero, List.reverse_nil, List.filterMap_nil, List.findSome?_nil,
      Option.or_none]
    constructor
    · exact fun hb => ⟨0, Nat.le_refl 0, hb, fun j hj hle => absurd hj (Nat.not_lt.mpr hle)⟩
    · rintro ⟨k, hk, hb, -⟩
      rwa [Nat.le_zero.mp hk] at hb
  | succ d ih =>
    rw [hstep, Option.or_eq_some_iff, Option.eq_none_iff_forall_ne_some]
    simp only [ih]
    constructor
    · rintro (hb | ⟨hnone, k, hk, hb, habove⟩)
      · exact ⟨d + 1, Nat.le_refl _, hb, fun j hj hle => absurd hj (Nat.not_lt.mpr hle)⟩
      · refine ⟨k, Nat.le_succ_of_le hk, hb, fun j hj hle => ?_⟩
        rcases Nat.le_succ_iff.mp hle with hle | rfl
        · exact habove j hj hle
        · exact hnone
    · rintro ⟨k, hk, hb, habove⟩
      rcases Nat.le_succ_iff.mp hk with hk | rfl
      · refine .inr ⟨habove _ (Nat.lt_succ_of_le hk) (Nat.le_refl _), k, hk, hb, ?_⟩
        exact fun j hj hle => habove j hj (Nat.le_succ_of_le hle)
      · exact .inl hb

/-- A relative name is looked up as in the table. -/
theorem ModuleContext.Represents.get?_eq_some_iff (h : Represents ms t) (g : GlobalName)
    (e : Entry .checked) : get? ms g = some e ↔ t.Finds g e := by
  rw [ModuleContext.get?, find_eq, findSome?_range_eq_some_iff, h.path, FlatTable.Finds]
  refine exists_congr fun k => and_congr_right fun hk => and_congr (h.finds k hk g e) ?_
  exact forall_congr' fun j => forall_congr' fun _ => forall_congr' fun hj =>
    forall_congr' fun e' => not_congr (h.finds j hj g e')

/-! ## Environments that stand for a table -/

namespace Env

variable {env : Env M}

theorem insert?_of_represents (h : ModuleContext.Represents env.modules t) (name : String)
    (e : Entry .checked) : env.insert? name e = if t.admits name e
      then some { env with modules := ModuleContext.put env.modules name e } else none := by
  have hadmits : mayReplace ((ModuleContext.globals env.modules).get? name) e
      = t.admits name e := by
    rw [h.globals, FlatTable.admits]
    obtain ⟨_, _, new⟩ := e
    rcases t.entries.lookup (t.path, name) with _ | ⟨_, _, old⟩
    · rfl
    · cases old <;> cases new <;> rfl
  rw [insert?, hadmits]

/-- Each command does to the table what it does to the environment. -/
theorem represents_apply (h : ModuleContext.Represents env.modules t) (c : Command) :
    ModuleContext.Represents (env.apply c).modules (t.apply c) := by
  cases c with
  | enter path => exact h.enter path
  | insert name e =>
    rw [apply, insert?_of_represents h, FlatTable.apply]
    by_cases hadmits : t.admits name e
    · rw [if_pos hadmits, if_pos hadmits]
      exact h.put name e
    · rw [if_neg hadmits, if_neg hadmits]
      exact h
  | remove name => exact h.drop name

theorem represents_foldl (h : ModuleContext.Represents env.modules t) (commands : List Command) :
    ModuleContext.Represents (commands.foldl apply env).modules
      (commands.foldl FlatTable.apply t) := by
  induction commands generalizing env t with
  | nil => exact h
  | cons c commands ih => exact ih (represents_apply h c)

end Env

end

/-- An environment refines a flat table of absolute names. Whatever commands are carried out from
the empty environment on, the path of the open modules is that of the table; in the root, names are
what they are in the table; an insertion succeeds where the table admits it; and relative names are
found as in the table. -/
theorem env_refines_flat_table {M : Type} [ModuleContext M] [LawfulModuleContext M]
    (commands : List Command) :
    let env := commands.foldl Env.apply ({} : Env M)
    let t := commands.foldl FlatTable.apply {}
    LawfulModuleContext.opened env.modules = t.path ∧
    (∀ p n, (env.enter []).get? ⟨p, n⟩ = t.entries.lookup (p, n)) ∧
    (∀ name e, (env.insert? name e).isSome = t.admits name e) ∧
    ∀ g e, env.get? g = some e ↔ t.Finds g e := by
  intro env t
  have h : ModuleContext.Represents env.modules t :=
    Env.represents_foldl ModuleContext.represents_root commands
  refine ⟨h.path, fun p n => Option.ext fun e => ?_, fun name e => ?_, h.get?_eq_some_iff⟩
  · have hroot := (h.enter []).get?_eq_some_iff ⟨p, n⟩ e
    refine hroot.trans ⟨?_, fun hentry => ?_⟩
    · rintro ⟨k, hk, hfound, -⟩
      obtain rfl := Nat.le_zero.mp hk
      exact hfound.2
    · exact ⟨0, Nat.le_refl 0, ⟨nofun, hentry⟩, fun j hj hle => absurd hj (Nat.not_lt.mpr hle)⟩
  · rw [Env.insert?_of_represents h]
    split <;> simp_all

/-- Inside `a/a` the name `a/x` is not found although `a/a/x` is there: seen from the root and from
`a`, the path starts with an open module. -/
theorem env_refines_flat_table_inside_repeated_name :
    let e : Entry .checked := ⟨(), "x", .integer .u64⟩
    let env := [Command.enter ["a", "a"], .insert "x" e].foldl Env.apply ({} : Env)
    env.modules.path = ["a", "a"] ∧
    (env.enter []).get? ⟨["a", "a"], "x"⟩ = some e ∧
    (env.insert? "x" e).isSome = false ∧
    env.get? ⟨[], "x"⟩ = some e ∧ env.get? ⟨["a"], "x"⟩ = none := by
  intro e env
  obtain ⟨hpath, hroot, hinsert, hget⟩ := env_refines_flat_table (M := Modules)
    [.enter ["a", "a"], .insert "x" e]
  refine ⟨hpath, hroot ["a", "a"] "x", hinsert "x" e, ?_, ?_⟩
  · exact (hget ⟨[], "x"⟩ e).mpr ⟨2, Nat.le_refl 2, ⟨nofun, rfl⟩,
      fun j hj hle => absurd hj (Nat.not_lt.mpr hle)⟩
  · refine Option.eq_none_iff_forall_not_mem.mpr fun found hfound => ?_
    obtain ⟨k, hk, ⟨hopen, hentry⟩, -⟩ := (hget ⟨["a"], "x"⟩ found).mp hfound
    match k, hk with
    | 0, _ | 1, _ => exact hopen "a" rfl rfl
    | 2, _ => exact absurd hentry nofun

end DependentCore
