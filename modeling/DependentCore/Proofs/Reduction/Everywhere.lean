import DependentCore.Proofs.Binding.Heads
import DependentCore.Proofs.Reduction.Units

/-!
# What rewriting keeps

Normalisation moves nodes from one place to another, and it puts new ones in: literals for what is
folded, abstractions for the globals that are unfolded, and new signatures for functions that are
supplied with arguments. A property of nodes that these have holds everywhere in a normal form.

* `StepInvariant`: a property that steps at the root of a term keep,
* `RewriteInvariant`: one that unfolding keeps as well,
* `Term.Steps.everywhere`, `Rewrites.everywhere`: so do all passes of normalisation,
* `Env.everywhere_of_normalizeUnit?`: and so does the normalisation of a unit.
-/

namespace DependentCore

/-! ## Arguments and statements -/

section
variable {p : Phase} {P : Term p → Prop}

theorem Tele.Everywhere.supply (hP : Substitutive P) (floor : Nat) {k : Binder} :
    ∀ {args : List (Term p)} {t : Tele p k}, EverywhereList P args → t.Everywhere P →
      (t.supply floor args).Everywhere P
  | _ :: _, .arg _ _ _ (some v) rest, hargs, ht => by
    have hnew : (rest.refresh v floor).2.Everywhere P := by
      rw [Tele.refresh_eq]
      exact ht.2.rename hP v _
    exact ⟨ht.1, (Tele.Everywhere.supply hP floor hargs.2 hnew).subst hP _ hargs.1⟩
  | _ :: _, .arg _ _ _ none _, hargs, ht => ⟨ht.1, Tele.Everywhere.supply hP floor hargs.2 ht.2⟩
  | _ :: _, .fields, _, ht | _ :: _, .returns _ _, _, ht | _ :: _, .runs _ _ _, _, ht => ht
  | [], t, _, ht => by cases t <;> exact ht

theorem Tele.Everywhere.dropArgs {k : Binder} {t : Tele p k} (ht : t.Everywhere P) :
    t.dropArgs.Everywhere P := by
  induction k, t using Tele.args_induction with
  | fields | returns | runs => exact ht
  | arg _ _ _ _ _ _ ih => exact ih ht.2

theorem Tele.Everywhere.apply (hP : Substitutive P) {f : Function p} (hf : f.Everywhere P)
    {args : List (Term p)} (hargs : EverywhereList P args) : (f.apply args).Everywhere P :=
  (hf.supply hP _ hargs).dropArgs

end

/-! ### Removal of statements -/

section
variable {p : Phase}

mutual

/-- The terms that stand in a statement. -/
def Stmt.terms : Stmt p → List (Term p)
  | .call _ x | .ret _ x | .impossibleBy _ x => [x]
  | .ifThen _ cond yes => cond :: bodyTerms yes
  | .ifElse _ cond yes no => cond :: (bodyTerms yes ++ bodyTerms no)
  | .retUnit _ | .impossible _ => []

/-- The terms that stand in the statements of a body. -/
def bodyTerms : List (Stmt p) → List (Term p)
  | [] => []
  | s :: rest => s.terms ++ bodyTerms rest

end

theorem bodyTerms_append (b c : Body p) : bodyTerms (b ++ c) = bodyTerms b ++ bodyTerms c := by
  induction b with
  | nil => rfl
  | cons s b ih => simp [bodyTerms, ih]

mutual

theorem Stmt.terms_dropUnreachable_subset : ∀ s : Stmt p, s.dropUnreachable.result.terms ⊆ s.terms
  | .ifThen _ _ yes => by
    have hyes := bodyTerms_dropUnreachable_subset yes
    rw [Stmt.dropUnreachable]
    split <;> grind [Stmt.terms, bodyTerms]
  | .ifElse _ _ yes no => by
    have hyes := bodyTerms_dropUnreachable_subset yes
    have hno := bodyTerms_dropUnreachable_subset no
    rw [Stmt.dropUnreachable]
    split
    · grind [Stmt.terms]
    · split <;> grind [Stmt.terms, bodyTerms]
  | .call _ _ | .ret _ _ | .retUnit _ | .impossible _ | .impossibleBy _ _ => fun _ h => h

/-- Removal of unreachable statements adds no terms. -/
theorem bodyTerms_dropUnreachable_subset : ∀ b : Body p,
    bodyTerms (dropUnreachable b).result ⊆ bodyTerms b
  | [] => fun _ h => h
  | s :: rest => by
    have hs := s.terms_dropUnreachable_subset
    have hrest := bodyTerms_dropUnreachable_subset rest
    rw [dropUnreachable]
    split <;> grind [bodyTerms]

end

theorem PrunesIf.terms_subset {cond : Checked} {yes : Body .checked} {no : Option (Body .checked)}
    {rest spliced : Body .checked} {dropRest : Bool}
    (h : PrunesIf cond yes rest no spliced dropRest) :
    bodyTerms spliced ⊆ bodyTerms yes ++ bodyTerms (no.getD []) := by
  cases h with
  | literalTrue | first | take => exact List.subset_append_left _ _
  | literalFalse | second => exact List.subset_append_right _ _

theorem Stmt.terms_of_prune? {s : Stmt .checked} {rest spliced : Body .checked} {dropRest : Bool}
    (h : s.prune? rest = some (spliced, dropRest)) : bodyTerms spliced ⊆ s.terms := by
  cases s with
  | call m x =>
    simp only [Stmt.prune?] at h
    split at h
    · cases h
    · cases h
      exact List.nil_subset _
  | ifThen m cond yes =>
    have hif : PrunesIf cond yes rest none spliced dropRest := prunesIf_of_outcomeOfIf? h
    grind [hif.terms_subset, Stmt.terms, bodyTerms]
  | ifElse m cond yes no =>
    have hif : PrunesIf cond yes rest (some no) spliced dropRest := prunesIf_of_outcomeOfIf? h
    grind [hif.terms_subset, Stmt.terms]
  | _ => cases h

/-- Removal of statements whose outcome is known adds no terms. -/
theorem bodyTerms_pruneStmts_subset : ∀ b : Body .checked,
    bodyTerms (pruneStmts b).result ⊆ bodyTerms b
  | [] => fun _ h => h
  | s :: rest => by
    have hrest := bodyTerms_pruneStmts_subset rest
    rw [pruneStmts]
    split
    · next hprune => grind [Stmt.terms_of_prune? hprune, bodyTerms]
    · next hprune => grind [Stmt.terms_of_prune? hprune, bodyTerms, bodyTerms_append]
    · grind [bodyTerms]

variable {P : Term p → Prop}

mutual

theorem Stmt.everywhere_iff_terms : ∀ {s : Stmt p},
    s.Everywhere P ↔ ∀ t ∈ s.terms, t.Everywhere P
  | .call _ _ | .ret _ _ | .impossibleBy _ _ => by simp [Stmt.Everywhere, Stmt.terms]
  | .ifThen _ _ _ => by
    simp [Stmt.Everywhere, Stmt.terms, everywhereBody_iff_terms]
  | .ifElse _ _ _ _ => by
    simp [Stmt.Everywhere, Stmt.terms, everywhereBody_iff_terms, or_imp, forall_and]
  | .retUnit _ | .impossible _ => by simp [Stmt.Everywhere, Stmt.terms]

theorem everywhereBody_iff_terms : ∀ {b : List (Stmt p)},
    EverywhereBody P b ↔ ∀ t ∈ bodyTerms b, t.Everywhere P
  | [] => by simp [EverywhereBody, bodyTerms]
  | _ :: _ => by
    simp [EverywhereBody, bodyTerms, Stmt.everywhere_iff_terms, everywhereBody_iff_terms, or_imp,
      forall_and]

end

theorem dropUnreachable_everywhere {b : Body p} (hb : EverywhereBody P b) :
    EverywhereBody P (dropUnreachable b).result :=
  everywhereBody_iff_terms.mpr fun t ht =>
    everywhereBody_iff_terms.mp hb t (bodyTerms_dropUnreachable_subset b ht)

theorem pruneStmts_everywhere {P : Checked → Prop} {b : Body .checked} (hb : EverywhereBody P b) :
    EverywhereBody P (pruneStmts b).result :=
  everywhereBody_iff_terms.mpr fun t ht =>
    everywhereBody_iff_terms.mp hb t (bodyTerms_pruneStmts_subset b ht)

end

/-! ## Steps -/

/-- Folded arithmetic is wrapped around at the type of the node. -/
theorem arithResult?_eq_some {env : Env} {ty : Option Checked} {op : ArithOp}
    {x y : Form .checked} {n : Int}
    (h : arithResult? env ty op x y = some n) :
    ∃ ty' it m, ty = some ty' ∧ env.intType? ty' = some it ∧ n = it.wrap m := by
  unfold arithResult? at h
  split at h
  · obtain ⟨ty', hty, h⟩ := Option.bind_eq_some_iff.mp h
    obtain ⟨it, hit, h⟩ := Option.bind_eq_some_iff.mp h
    obtain ⟨m, -, h⟩ := Option.bind_eq_some_iff.mp h
    cases h
    exact ⟨ty', it, m, hty, hit, rfl⟩
  · cases h

/-- Whether the nodes with a head are conditions that are evaluated to a literal. -/
def Head.isCondition : Head → Bool
  | .unary .not | .binary (.logic _) | .binary (.compare _) => true
  | _ => false

/-- A property of nodes that is kept when the parts of a node are rewritten, when a node is replaced
by a literal, a number or a list, and when a function takes in its arguments. -/
structure StepInvariant (env : Env) (P : Checked → Prop) : Prop where
  substitutive : Substitutive P
  parts : ∀ {note f f'}, P (.mk note f) → f'.head = f.head → P (.mk note f')
  literal : ∀ {note f b}, P (.mk note f) → f.head.isCondition → P (.mk note (.atom (.lit b)))
  number : ∀ {note op x y n}, arithResult? env note.sort? op x y = some n →
    P (.mk note (.atom (.num n)))
  list : ∀ {note f args xs}, P (.mk note (.app f args)) → P (.mk note (.list xs))
  function : ∀ {note} {f g : Function .checked}, P (.mk note (.bind .abs f)) →
    P (.mk (note.retype g.signature) (.bind .abs g))
  signature : ∀ {ty h} {f : Function .checked} {s : Signature .checked},
    P (.mk (.sort ty h) (.bind .abs f)) → P ty → P (.mk ty.note (.bind .pi s))

section
variable {env : Env} {P : Checked → Prop}

theorem Term.Everywhere.root {t : Checked} (h : t.Everywhere P) : P t := by
  cases t
  exact h.1

/-- A step at the root keeps what holds everywhere. -/
theorem Term.Steps.everywhere (hP : StepInvariant env P) {t u : Checked} (h : Term.Steps env t u)
    (ht : t.Everywhere P) : u.Everywhere P := by
  cases h with
  | because => exact ht.2.2.1
  | @supply note fnote f args _ _ _ =>
    obtain ⟨hroot, hnote, ⟨hfroot, hfnote, hf⟩, hargs⟩ := ht
    have happly := Tele.Everywhere.apply hP.substitutive hf hargs
    refine ⟨hP.parts hroot rfl, hnote, ⟨hP.function hfroot, ?_, happly⟩, trivial⟩
    -- only the signature in the sort of the function is new
    cases fnote with
    | place | kind => trivial
    | sort ty h =>
      have hty : ty.Everywhere P := hfnote
      exact ⟨hP.signature hfroot hty.root, hty.note, happly.bare⟩
  | ret hbody => exact (ht.2.2.1.2.2.body? hbody).1
  | not | logic | compare => exact ⟨hP.literal ht.1 rfl, ht.2.1, trivial⟩
  | arith hn => exact ⟨hP.number hn, ht.2.1, trivial⟩
  | member hu =>
    obtain ⟨xs, _, _, _, hform, -, -, -, hget⟩ := selectMember?_eq_some hu
    have hx := (show Term.Everywhere _ _ from ht.2.2).form
    rw [hform] at hx
    exact everywhereList_iff.mp hx u (List.mem_of_getElem? hget)
  | element hu =>
    obtain ⟨xs, _, _, hform, -, -, hget⟩ := selectElement?_eq_some hu
    have hx := ht.2.2.1.form
    rw [hform] at hx
    exact everywhereList_iff.mp hx u (List.mem_of_getElem? hget)
  | slice _ hxs =>
    obtain ⟨_, ys, hys, hsub⟩ := dropElements?_eq_some hxs
    have hlist : EverywhereList _ ys := (everywhereList_iff.mp ht.2.2.2 _ hys).2.2
    exact ⟨hP.list ht.1, ht.2.1, everywhereList_iff.mpr fun x hx =>
      everywhereList_iff.mp hlist x (hsub.subset hx)⟩

end

/-- A property of references is kept by steps if substitution keeps it: references are not
rewritten, and nodes that are put in are none. -/
theorem stepInvariant_references (env : Env) {Q : GlobalName → Note .checked Checked → Prop}
    (hQ : Substitutive (Term.References Q)) : StepInvariant env (Term.References Q) where
  substitutive := hQ
  parts {note f f'} h hhead := by
    cases f' with
    | atom a =>
      cases Form.eq_atom_of_head hhead.symm
      exact h
    | _ => trivial
  literal _ _ := trivial
  number _ := trivial
  list _ := trivial
  function _ := trivial
  signature _ _ := trivial

/-! ## Normalisation -/

/-- A property of nodes that is kept by steps, and when a definition is put in the place of its
name. The definitions have it everywhere. -/
structure RewriteInvariant (env : Env) (P : Checked → Prop) : Prop extends StepInvariant env P where
  unfold : ∀ {note g f}, env.function? g = some f → P (.mk note (.atom (.global g))) →
    P (.mk note (.bind .abs f))
  defined : ∀ {g f}, env.function? g = some f → f.Everywhere P

/-- A property holds everywhere in what a pass rewrites. -/
def Subject.Everywhere (P : Checked → Prop) : Subject → Prop
  | .term t | .parts t | .call t => t.Everywhere P
  | .list xs => EverywhereList P xs
  | .tele t => t.Everywhere P
  | .body b | .stmts b => EverywhereBody P b
  | .stmt s => s.Everywhere P

section
variable {env : Env} {P : Checked → Prop} {stack : List GlobalName}

/-- The outline of a telescope is not rewritten. -/
theorem Rewrites.outline_eq {k : Binder} {t t' : Tele .checked k} {c : Bool}
    (h : Rewrites env stack (.tele t) (.tele t') c) : t'.outline = t.outline := by
  induction k, t using Tele.args_induction generalizing c with
  | fields | returns | runs =>
    cases h
    rfl
  | arg _ _ _ _ _ _ ih =>
    cases h with
    | arg _ h => rw [Tele.outline_arg, Tele.outline_arg, ih h]

/-- The definition of a global is put in its place. -/
theorem Term.Everywhere.unfolding (hP : RewriteInvariant env P) {t call : Checked} {g : GlobalName}
    (h : t.unfolding? env stack = some (g, call)) (ht : t.Everywhere P) : call.Everywhere P := by
  unfold Term.unfolding? at h
  split at h
  · split at h
    · next hf =>
      split at h
      · cases h
        obtain ⟨hroot, hnote, ⟨hfroot, hfnote, -⟩, hargs⟩ := ht
        exact ⟨hP.parts hroot rfl, hnote, ⟨hP.unfold hf hfroot, hfnote, hP.defined hf⟩, hargs⟩
      · cases h
    · cases h
  · cases h

/-- All passes of normalisation keep what holds everywhere. -/
theorem Rewrites.everywhere (hP : RewriteInvariant env P) {a a' : Subject} {c : Bool}
    (h : Rewrites env stack a a' c) : a.Everywhere P → a'.Everywhere P := by
  -- after the parts of a term come a step of beta reduction and one of folding at its root
  have hreduce {t : Checked} (ht : t.Everywhere P) : (t.reduce env).result.Everywhere P :=
    Term.reduce_induction (fun _ _ ht hstep => hstep.everywhere hP.toStepInvariant ht) ht
  induction h with
  | again _ _ _ _ hparts hcall hterm => exact fun h => hterm (hcall (hreduce (hparts h)))
  | done _ _ _ hparts hcall => exact fun h => hcall (hreduce (hparts h))
  | atom | var | nil | fields | keep | stmtsNil | retUnit | impossible => exact id
  | unary _ ih | list _ ih => exact fun h => ⟨hP.parts h.1 rfl, h.2.1, ih h.2.2⟩
  | binary _ _ ihx ihy | app _ _ ihx ihy =>
    exact fun h => ⟨hP.parts h.1 rfl, h.2.1, ihx h.2.2.1, ihy h.2.2.2⟩
  | @bind _ _ k _ _ _ hrewrites ih =>
    intro h
    have hhead := congrArg (Head.bind k) hrewrites.outline_eq
    exact ⟨hP.parts h.1 hhead, h.2.1, ih h.2.2⟩
  | returns _ ih | stmtCall _ ih | ret _ ih | impossibleBy _ ih => exact ih
  | cons _ _ ih₁ ih₂ | runs _ _ ih₁ ih₂ | arg _ _ ih₁ ih₂ | ifThen _ _ ih₁ ih₂
  | stmtsNext _ _ _ ih₁ ih₂ => exact fun h => ⟨ih₁ h.1, ih₂ h.2⟩
  | unfold hunfold _ _ ih => exact fun h => ih (Term.Everywhere.unfolding hP hunfold h)
  | bodyAgain _ _ _ hstmts hbody =>
    exact fun h => hbody (pruneStmts_everywhere (hstmts (dropUnreachable_everywhere h)))
  | bodyDone _ _ hstmts =>
    exact fun h => pruneStmts_everywhere (hstmts (dropUnreachable_everywhere h))
  | stmtsStop _ _ ih => exact fun h => ⟨ih h.1, h.2⟩
  | ifElse _ _ _ ih₁ ih₂ ih₃ => exact fun h => ⟨ih₁ h.1, ih₂ h.2.1, ih₃ h.2.2⟩

/-- What holds everywhere in a term holds everywhere in its normal form. -/
theorem everywhere_of_normalizeTerm (hP : RewriteInvariant env P) {n attempts left : Nat}
    {t : Checked} {u : Rewritten Checked}
    (h : (normalizeTerm env n stack t).run attempts = some (u, left)) (ht : t.Everywhere P) :
    u.result.Everywhere P :=
  ((rewrites_of_run env n).1 stack t _ _ _ h).everywhere hP ht

/-- What holds everywhere in a body holds everywhere in its normal form. -/
theorem everywhere_of_normalizeBody (hP : RewriteInvariant env P) {n attempts left : Nat}
    {b : Body .checked} {u : Rewritten (Body .checked)}
    (h : (normalizeBody env n stack b).run attempts = some (u, left)) (hb : EverywhereBody P b) :
    EverywhereBody P u.result := by
  obtain ⟨-, -, -, -, -, hbody, -⟩ := rewrites_of_run env n
  exact (hbody stack b _ _ _ h).everywhere hP hb

/-! ## Units -/

theorem Tele.everywhere_of_bare {k : Binder} {t : Tele .checked k} (hbare : t.bare.Everywhere P)
    (hbody : ∀ b, t.body? = some b → EverywhereBody P b) : t.Everywhere P := by
  induction k, t using Tele.args_induction with
  | fields | returns => exact hbare
  | runs _ _ body => exact ⟨hbare, hbody body rfl⟩
  | arg _ _ _ _ _ _ ih => exact ⟨hbare.1, ih hbare.2 hbody⟩

/-- What holds everywhere in the items of a unit holds everywhere after it is normalised. -/
theorem Env.everywhere_of_normalizeUnit? (hP : RewriteInvariant env P) {n : Nat}
    {es es' : List (Entry .checked)} (h : env.normalizeUnit? n es = some es')
    (hes : ∀ e ∈ es, e.item.Everywhere P) : ∀ e' ∈ es', e'.item.Everywhere P := by
  have hentry {e e'} (he : env.normalizeEntry? n e = some e') (hitem : e.item.Everywhere P) :
      e'.item.Everywhere P := by
    rcases Env.normalizeEntry?_cases he with
      ⟨rfl, -⟩ | ⟨f, f', b, b', c, hf, hf', hbare, hb, hb', hrewrites⟩
    · exact hitem
    · rw [hf] at hitem
      rw [hf']
      have hf : f.Everywhere P := hitem
      refine Tele.everywhere_of_bare (hbare ▸ hf.bare) fun _ h => ?_
      cases hb'.symm.trans h
      exact hrewrites.everywhere hP (hf.body? hb)
  have hentries := Env.forall₂_of_normalizeUnit? h
  clear h
  induction hentries with
  | nil => exact nofun
  | cons he _ ih =>
    rw [List.forall_mem_cons] at hes ⊢
    exact ⟨hentry he hes.1, ih hes.2⟩

end

end DependentCore
