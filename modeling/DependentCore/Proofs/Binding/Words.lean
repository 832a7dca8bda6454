import DependentCore.Proofs.Binding.Renaming

/-!
# Indices of 64 bits

On a machine, the index after the largest word is `0`, so an argument may be renamed to a variable
that is not new. This does not happen as long as the indices that natural numbers would give fit
into a word.

* `Tele.refresh_word`: if the next index fits, an argument is renamed to it,
* `Term.subst_word`, `Tele.subst_word`: if the indices of the result fit, substitution gives it. For
  an index that is chosen on the way stands in the result, as the variable of an argument.
-/

namespace DependentCore

variable {p : Phase}

section
variable {k : Binder} {v : Var} {floor : Nat} {t : Tele p k}

/-- If the next index is a word, the machine chooses it. -/
theorem Tele.fresh_word (h : (t.fresh v floor).index < UInt64.size) :
    t.fresh (c := .word) v floor = t.fresh v floor :=
  congrArg (Var.mk v.name) (Nat.mod_eq_of_lt h)

/-- If the next index is a word, an argument is renamed to it. -/
theorem Tele.refresh_word (h : (t.fresh v floor).index < UInt64.size) :
    t.refresh (c := .word) v floor = t.refresh v floor := by
  have hnew : t.maxIndex < (t.fresh (c := .word) v floor).index := by
    rw [Tele.fresh_word h]
    exact t.maxIndex_lt_fresh v floor
  rw [Tele.refresh_eq_rename (c := .word) hnew, Tele.fresh_word h, Tele.refresh_eq]

end

section
variable {x : Var} {r : Term p}

mutual

/-- Substitution in a term, on a machine. -/
theorem Term.subst_word : ∀ t : Term p, (t.subst x r).maxIndex < UInt64.size →
    t.subst (c := .word) x r = t.subst x r
  | .mk note (.atom a), h => by
    rw [Term.subst_atom, Term.maxIndex, Nat.max_lt] at h
    rw [Term.subst_atom (c := .word), Term.subst_atom, Note.subst_word note h.1]
  | .mk note (.var v), h => by
    rw [Term.subst_var] at h
    rw [Term.subst_var (c := .word), Term.subst_var]
    split
    · rfl
    · next hv =>
      rw [if_neg hv, Term.maxIndex, Nat.max_lt] at h
      rw [Note.subst_word note h.1]
  | .mk note (.unary op a), h => by
    rw [Term.subst_unary, Term.maxIndex, Nat.max_lt] at h
    rw [Term.subst_unary (c := .word), Term.subst_unary, Note.subst_word note h.1,
      Term.subst_word a h.2]
  | .mk note (.binary op a b), h => by
    rw [Term.subst_binary, Term.maxIndex, Nat.max_lt] at h
    have hparts := Nat.max_lt.mp h.2
    rw [Term.subst_binary (c := .word), Term.subst_binary, Note.subst_word note h.1,
      Term.subst_word a hparts.1, Term.subst_word b hparts.2]
  | .mk note (.app f args), h => by
    rw [Term.subst_app, Term.maxIndex, Nat.max_lt] at h
    have hparts := Nat.max_lt.mp h.2
    rw [Term.subst_app (c := .word), Term.subst_app, Note.subst_word note h.1,
      Term.subst_word f hparts.1, map_subst_word args hparts.2]
  | .mk note (.list xs), h => by
    rw [Term.subst_list, Term.maxIndex, Nat.max_lt] at h
    rw [Term.subst_list (c := .word), Term.subst_list, Note.subst_word note h.1,
      map_subst_word xs h.2]
  | .mk note (.bind k t), h => by
    rw [Term.subst_bind, Term.maxIndex, Nat.max_lt] at h
    rw [Term.subst_bind (c := .word), Term.subst_bind, Note.subst_word note h.1,
      Tele.subst_word t h.2]
termination_by t => 2 * t.size
decreasing_by all_goals simp only [Term.size, Form.size]; omega

theorem Note.subst_word : ∀ n : Note p (Term p),
    (n.map (·.subst x r)).maxIndex < UInt64.size →
      n.map (·.subst (c := .word) x r) = n.map (·.subst x r)
  | .place _ _, _ | .kind _, _ => rfl
  | .sort ty h', h => congrArg (Note.sort · h') (Term.subst_word ty h)
termination_by n => 2 * n.size + 1
decreasing_by simp only [Note.size]; omega

/-- Substitution in a telescope, on a machine: each argument that is renamed stands in the result,
so its index is a word. -/
theorem Tele.subst_word {k : Binder} : ∀ t : Tele p k, (t.subst x r).maxIndex < UInt64.size →
    t.subst (c := .word) x r = t.subst x r
  | .fields, _ => rfl
  | .returns m ret, h => congrArg (Tele.returns m) (Term.subst_word ret h)
  | .runs m ret body, h => by
    rw [Tele.subst_runs, Tele.maxIndex, Nat.max_lt] at h
    rw [Tele.subst_runs (c := .word), Tele.subst_runs, Term.subst_word ret h.1,
      map_subst_word_body body h.2]
  | .arg mark qty ty none rest, h => by
    rw [Tele.subst_arg_none, Tele.maxIndex, Nat.max_lt] at h
    rw [Tele.subst_arg_none (c := .word), Tele.subst_arg_none, Term.subst_word ty h.1,
      Tele.subst_word rest h.2]
  | .arg mark qty ty (some v) rest, h => by
    rw [Tele.subst_arg_some] at h
    rw [Tele.subst_arg_some (c := .word), Tele.subst_arg_some]
    split
    · next hx =>
      rw [if_pos hx] at h
      obtain ⟨-, h⟩ := Nat.max_lt.mp h
      rw [Term.subst_word ty (Nat.max_lt.mp h).1]
    · next hx =>
      rw [if_neg hx] at h
      split
      · next hfree =>
        rw [if_pos hfree] at h
        obtain ⟨hnew, h⟩ := Nat.max_lt.mp h
        obtain ⟨hty, hrest⟩ := Nat.max_lt.mp h
        rw [Tele.refresh_word hnew, Term.subst_word ty hty,
          Tele.subst_word (rest.refresh v r.maxIndex).2 hrest]
      · next hfree =>
        rw [if_neg hfree] at h
        obtain ⟨-, h⟩ := Nat.max_lt.mp h
        obtain ⟨hty, hrest⟩ := Nat.max_lt.mp h
        rw [Term.subst_word ty hty, Tele.subst_word rest hrest]
termination_by t => 2 * t.size
decreasing_by all_goals simp only [Tele.size, Tele.size_refresh]; omega

theorem Stmt.subst_word : ∀ s : Stmt p, (s.subst x r).maxIndex < UInt64.size →
    s.subst (c := .word) x r = s.subst x r
  | .call mark a, h => congrArg (Stmt.call mark) (Term.subst_word a h)
  | .ret mark a, h => congrArg (Stmt.ret mark) (Term.subst_word a h)
  | .impossibleBy mark a, h => congrArg (Stmt.impossibleBy mark) (Term.subst_word a h)
  | .ifThen mark cond yes, h => by
    rw [Stmt.subst_ifThen, Stmt.maxIndex, Nat.max_lt] at h
    rw [Stmt.subst_ifThen (c := .word), Stmt.subst_ifThen, Term.subst_word cond h.1,
      map_subst_word_body yes h.2]
  | .ifElse mark cond yes no, h => by
    rw [Stmt.subst_ifElse, Stmt.maxIndex, Nat.max_lt, Nat.max_lt] at h
    rw [Stmt.subst_ifElse (c := .word), Stmt.subst_ifElse, Term.subst_word cond h.1,
      map_subst_word_body yes h.2.1, map_subst_word_body no h.2.2]
  | .retUnit _, _ | .impossible _, _ => rfl
termination_by s => 2 * s.size
decreasing_by all_goals simp only [Stmt.size]; omega

theorem map_subst_word : ∀ ts : List (Term p),
    maxIndexList (ts.map (·.subst x r)) < UInt64.size →
      ts.map (·.subst (c := .word) x r) = ts.map (·.subst x r)
  | [], _ => rfl
  | t :: ts, h => by
    have hparts := Nat.max_lt.mp h
    rw [List.map_cons, List.map_cons, Term.subst_word t hparts.1, map_subst_word ts hparts.2]
termination_by ts => 2 * sizeList ts + 1
decreasing_by all_goals simp only [sizeList]; have := Term.one_le_size t; omega

theorem map_subst_word_body : ∀ b : List (Stmt p),
    maxIndexBody (b.map (·.subst x r)) < UInt64.size →
      b.map (·.subst (c := .word) x r) = b.map (·.subst x r)
  | [], _ => rfl
  | s :: b, h => by
    have hparts := Nat.max_lt.mp h
    rw [List.map_cons, List.map_cons, Stmt.subst_word s hparts.1, map_subst_word_body b hparts.2]
termination_by b => 2 * sizeBody b + 1
decreasing_by all_goals simp only [sizeBody]; have := Stmt.one_le_size s; omega

end

end

end DependentCore
