import Horn.Renaming
import Horn.Store.Walk
import Horn.Unify
import Mathlib.Data.List.Forall2

/-! # More levels change no answer

    Walks, copies and unification take the number of levels they may descend and
    say so when it was too small.  Every other answer they give is also the answer
    with any larger number, so "for some number of levels" means the same as "for
    all that are large enough". -/

namespace Horn

universe u v

/-! ## Lists of answers -/

section lists

variable {α : Type u} {β : Type u}

theorem mapM_eq_some_iff {f : α → Option β} {as : List α} {bs : List β} :
    as.mapM f = some bs ↔ List.Forall₂ (fun a b => f a = some b) as bs := by
  induction as generalizing bs with
  | nil =>
    rw [List.mapM_nil]
    constructor
    · intro h
      cases h
      exact .nil
    · intro h
      cases h
      rfl
  | cons a as ih =>
    rw [List.mapM_cons]
    constructor
    · intro h
      obtain ⟨b, hb, h⟩ := Option.bind_eq_some_iff.mp h
      obtain ⟨bs', hbs, h⟩ := Option.bind_eq_some_iff.mp h
      cases h
      exact .cons hb (ih.mp hbs)
    · intro h
      cases h with
      | cons hb hbs =>
        rw [hb, ih.mpr hbs]
        rfl

theorem mapM_mono {f g : α → Option β} {as : List α} (h : ∀ a b, f a = some b → g a = some b)
    {bs : List β} (hf : as.mapM f = some bs) : as.mapM g = some bs :=
  mapM_eq_some_iff.mpr ((mapM_eq_some_iff.mp hf).imp h)

theorem mapM_isSome {f : α → Option β} {as : List α} (h : ∀ a ∈ as, ∃ b, f a = some b) :
    ∃ bs, as.mapM f = some bs := by
  induction as with
  | nil => exact ⟨[], rfl⟩
  | cons a as ih =>
    obtain ⟨b, hb⟩ := h a (List.mem_cons_self ..)
    obtain ⟨bs, hbs⟩ := ih fun a' ha' => h a' (List.mem_cons_of_mem _ ha')
    exact ⟨b :: bs, mapM_eq_some_iff.mpr (.cons hb (mapM_eq_some_iff.mp hbs))⟩

theorem exists_of_forall₂ {α : Type u} {β : Type v} {R : α → β → Prop} {as : List α} {bs : List β}
    (h : List.Forall₂ R as bs) {b : β} (hb : b ∈ bs) : ∃ a ∈ as, R a b := by
  induction h with
  | nil => cases hb
  | cons hab _ ih =>
    rcases List.mem_cons.mp hb with rfl | hb
    · exact ⟨_, List.mem_cons_self .., hab⟩
    · obtain ⟨a, ha, hr⟩ := ih hb
      exact ⟨a, List.mem_cons_of_mem _ ha, hr⟩

theorem map_eq_of_forall₂ {γ : Type v} {R : α → β → Prop} {f : α → γ} {g : β → γ} {as : List α}
    {bs : List β} (h : List.Forall₂ R as bs) (hfg : ∀ a ∈ as, ∀ b, R a b → g b = f a) :
    bs.map g = as.map f := by
  induction h with
  | nil => rfl
  | cons hab _ ih =>
    rw [List.map_cons, List.map_cons, hfg _ (List.mem_cons_self ..) _ hab,
      ih fun a ha => hfg a (List.mem_cons_of_mem _ ha)]

variable {f g : α → Option Bool} {as : List α}

/-- One answer is `true`: that of the first that does not say `false`. -/
theorem exists_of_anyM (h : as.anyM f = some true) : ∃ a ∈ as, f a = some true := by
  induction as with
  | nil => cases h
  | cons a as ih =>
    rw [List.anyM_cons] at h
    obtain ⟨b, hb, h⟩ := Option.bind_eq_some_iff.mp h
    -- the first answer decides if it is `true`; otherwise the rest does
    cases b with
    | true => exact ⟨a, List.mem_cons_self .., hb⟩
    | false =>
      obtain ⟨a', ha', hf⟩ := ih h
      exact ⟨a', List.mem_cons_of_mem _ ha', hf⟩

theorem forall_of_anyM (h : as.anyM f = some false) : ∀ a ∈ as, f a = some false := by
  induction as with
  | nil => intro a ha; cases ha
  | cons a as ih =>
    rw [List.anyM_cons] at h
    obtain ⟨b, hb, h⟩ := Option.bind_eq_some_iff.mp h
    -- no answer can have been `true`, or the question would have ended there
    cases b with
    | true => cases h
    | false =>
      intro a' ha'
      rcases List.mem_cons.mp ha' with rfl | ha'
      · exact hb
      · exact ih h a' ha'

theorem anyM_mono (h : ∀ a b, f a = some b → g a = some b) {b : Bool}
    (hf : as.anyM f = some b) : as.anyM g = some b := by
  induction as with
  | nil => exact hf
  | cons a as ih =>
    rw [List.anyM_cons] at hf ⊢
    obtain ⟨b', hb, hf⟩ := Option.bind_eq_some_iff.mp hf
    rw [h a b' hb]
    cases b' with
    | true => exact hf
    | false => exact ih hf

/-- If every element has an answer, the question for any has one. -/
theorem anyM_isSome (h : ∀ a ∈ as, ∃ b, f a = some b) : ∃ b, as.anyM f = some b := by
  induction as with
  | nil => exact ⟨false, rfl⟩
  | cons a as ih =>
    obtain ⟨b, hb⟩ := h a (List.mem_cons_self ..)
    obtain ⟨b', hb'⟩ := ih fun a' ha' => h a' (List.mem_cons_of_mem _ ha')
    rw [List.anyM_cons, hb]
    cases b with
    | true => exact ⟨true, rfl⟩
    | false => exact ⟨b', hb'⟩

theorem allM_mono (h : ∀ a b, f a = some b → g a = some b) {b : Bool}
    (hf : as.allM f = some b) : as.allM g = some b := by
  induction as with
  | nil => exact hf
  | cons a as ih =>
    rw [List.allM_cons] at hf ⊢
    obtain ⟨b', hb, hf⟩ := Option.bind_eq_some_iff.mp hf
    rw [h a b' hb]
    cases b' with
    | true => exact ih hf
    | false => exact hf

theorem allM_eq_true (h : ∀ a ∈ as, f a = some true) : as.allM f = some true := by
  induction as with
  | nil => rfl
  | cons a as ih =>
    rw [List.allM_cons, h a (List.mem_cons_self ..)]
    exact ih fun a' ha' => h a' (List.mem_cons_of_mem _ ha')

theorem forall_of_allM (h : as.allM f = some true) : ∀ a ∈ as, f a = some true := by
  induction as with
  | nil => simp
  | cons a as ih =>
    rw [List.allM_cons] at h
    obtain ⟨b, hb, h⟩ := Option.bind_eq_some_iff.mp h
    cases b with
    | false => cases h
    | true =>
      intro a' ha'
      rcases List.mem_cons.mp ha' with rfl | ha'
      · exact hb
      · exact ih h a' ha'

end lists

/-- What holds of each element from some level on holds of all from some level on. -/
theorem exists_level {α : Type u} {P : Nat → α → Prop} (mono : ∀ n a, P n a → P (n + 1) a)
    {as : List α} (h : ∀ a ∈ as, ∃ n, P n a) : ∃ n, ∀ a ∈ as, P n a := by
  have later : ∀ n k a, P n a → P (n + k) a := by
    intro n k a ha
    induction k with
    | zero => exact ha
    | succ k ih => exact mono _ a ih
  induction as with
  | nil => exact ⟨0, fun a ha => by cases ha⟩
  | cons a as ih =>
    obtain ⟨n, hn⟩ := h a (List.mem_cons_self ..)
    obtain ⟨m, hm⟩ := ih fun a' ha' => h a' (List.mem_cons_of_mem _ ha')
    -- the two levels together do for the first element and for the others
    refine ⟨n + m, fun a' ha' => ?_⟩
    rcases List.mem_cons.mp ha' with rfl | ha'
    · exact later n m _ hn
    · rw [Nat.add_comm]
      exact later m n _ (hm a' ha')

/-- An answer that one more level does not change is the same with any larger number. -/
theorem answer_mono {α : Type u} {f : Nat → Option α}
    (hsucc : ∀ n a, f n = some a → f (n + 1) = some a) {n m : Nat} (hnm : n ≤ m) {a : α}
    (h : f n = some a) : f m = some a := by
  induction hnm with
  | refl => exact h
  | step _ ih => exact hsucc _ a ih

variable {A : Type u}

/-! ## Walks -/

namespace Store

variable (s : Store A)

theorem resolved_succ {n : Nat} {t u : Term A} (h : s.resolved n t = some u) :
    s.resolved (n + 1) t = some u := by
  induction n generalizing t u with
  | zero => cases h
  | succ n ih =>
    cases t with
    | app f as =>
      obtain ⟨as', has, rfl⟩ := Option.map_eq_some_iff.mp h
      rw [resolved, mapM_mono (fun _ _ => ih) has]
      rfl
    | var x =>
      rw [resolved] at h ⊢
      split at h
      · exact h
      · next c hx =>
        obtain ⟨as', has, rfl⟩ := Option.map_eq_some_iff.mp h
        rw [mapM_mono (fun _ _ => ih) has]
        rfl

theorem resolved_mono {n m : Nat} (hnm : n ≤ m) {t u : Term A} (h : s.resolved n t = some u) :
    s.resolved m t = some u :=
  answer_mono (f := fun n => s.resolved n t) (fun _ _ => s.resolved_succ) hnm h

theorem resolvedCompound_succ {n : Nat} {c d : Compound A}
    (h : s.resolvedCompound n c = some d) : s.resolvedCompound (n + 1) c = some d := by
  obtain ⟨as', has, rfl⟩ := Option.map_eq_some_iff.mp h
  rw [resolvedCompound, mapM_mono (fun _ _ => s.resolved_succ) has]
  rfl

theorem resolvedCompound_mono {n m : Nat} (hnm : n ≤ m) {c d : Compound A}
    (h : s.resolvedCompound n c = some d) : s.resolvedCompound m c = some d :=
  answer_mono (f := fun n => s.resolvedCompound n c) (fun _ _ => s.resolvedCompound_succ) hnm h

theorem contains_succ (x : Var) {n : Nat} {t : Term A} {b : Bool}
    (h : s.contains x n t = some b) : s.contains x (n + 1) t = some b := by
  induction n generalizing t b with
  | zero => cases h
  | succ n ih =>
    cases t with
    | app f as => exact anyM_mono (fun _ _ => ih) h
    | var y =>
      -- a variable of the class ends the walk; any other leads to its value
      rw [contains] at h ⊢
      split
      · next hy => rw [if_pos hy] at h; exact h
      · next hy =>
        rw [if_neg hy] at h
        split
        · next hv => rw [hv] at h; exact h
        · next c hv =>
          rw [hv] at h
          exact anyM_mono (fun _ _ => ih) h

theorem contains_mono (x : Var) {n m : Nat} (hnm : n ≤ m) {t : Term A} {b : Bool}
    (h : s.contains x n t = some b) : s.contains x m t = some b :=
  answer_mono (f := fun n => s.contains x n t) (fun _ _ => s.contains_succ x) hnm h

theorem alike_mono [DecidableEq A] {f g : Term A → Term A → Option Bool}
    (hfg : ∀ t u b, f t u = some b → g t u = some b) {c d : Option (Compound A)} {b : Bool}
    (h : alike f c d = some b) : alike g c d = some b := by
  unfold alike at h ⊢
  split
  · next c d =>
    simp only at h
    split
    · next hcd =>
      rw [if_pos hcd] at h
      exact allM_mono (fun p b hp => hfg p.1 p.2 b hp) h
    · next hcd => rw [if_neg hcd] at h; exact h
  · next hnone =>
    split at h
    · next c d => exact absurd rfl (hnone c d rfl)
    · exact h

/-- Two terms are variables of one class, or their values are compared. -/
theorem same_cases [DecidableEq A] (s : Store A) (t u : Term A) :
    (∃ x y, t = .var x ∧ u = .var y ∧ s.aliased x y = true ∧
        ∀ n, s.same (n + 1) t u = some true) ∨
      ∀ n, s.same (n + 1) t u = alike (s.same n) (s.view t) (s.view u) := by
  cases t with
  | app f as => exact .inr fun _ => rfl
  | var x =>
    cases u with
    | app g bs => exact .inr fun _ => rfl
    | var y =>
      by_cases hxy : s.aliased x y = true
      · exact .inl ⟨x, y, rfl, rfl, hxy, fun _ => by rw [same, if_pos hxy]⟩
      · exact .inr fun _ => by rw [same, if_neg hxy, view, view]

theorem same_succ [DecidableEq A] {n : Nat} {t u : Term A} {b : Bool}
    (h : s.same n t u = some b) : s.same (n + 1) t u = some b := by
  induction n generalizing t u b with
  | zero => cases h
  | succ n ih =>
    rcases s.same_cases t u with ⟨x, y, -, -, -, hsame⟩ | hsame
    · rw [hsame] at h ⊢
      exact h
    · rw [hsame] at h ⊢
      exact alike_mono (fun _ _ _ => ih) h

/-! ## Copies -/

end Store

theorem copyEach_mono {f g : Term A → Copying → Option (Term A × Copying)}
    (hfg : ∀ t p r, f t p = some r → g t p = some r) {ts : List (Term A)} {p : Copying}
    {r : List (Term A) × Copying} (h : copyEach f ts p = some r) : copyEach g ts p = some r := by
  induction ts generalizing p r with
  | nil => exact h
  | cons t ts ih =>
    obtain ⟨t', q, ts', q', ht, hts, rfl⟩ := copyEach_cons_eq_some_iff.mp h
    exact copyEach_cons_eq_some_iff.mpr ⟨t', q, ts', q', hfg t p _ ht, ih hts, rfl⟩

namespace Store

theorem copyTerm_succ (s : Store A) {n : Nat} {t : Term A} {p : Copying} {r : Term A × Copying}
    (h : s.copyTerm n t p = some r) : s.copyTerm (n + 1) t p = some r := by
  induction n generalizing t p r with
  | zero => cases h
  | succ n ih =>
    cases t with
    | app f as =>
      obtain ⟨q, hq, rfl⟩ := Option.map_eq_some_iff.mp h
      rw [copyTerm, copyEach_mono (fun _ _ _ => ih) hq]
      rfl
    | var x =>
      rw [copyTerm] at h ⊢
      split at h
      · exact h
      · next c hx =>
        obtain ⟨q, hq, rfl⟩ := Option.map_eq_some_iff.mp h
        rw [copyEach_mono (fun _ _ _ => ih) hq]
        rfl

theorem copyCompound_succ (s : Store A) {n : Nat} {c : Compound A} {r : Renaming}
    {a : Compound A × Renaming × Store A} (h : s.copyCompound n c r = some a) :
    s.copyCompound (n + 1) c r = some a := by
  obtain ⟨b, hb, rfl⟩ := Option.map_eq_some_iff.mp h
  obtain ⟨q, hq, rfl⟩ := Option.map_eq_some_iff.mp hb
  rw [copyCompound, copying, copyEach_mono (fun _ _ _ => s.copyTerm_succ) hq]
  rfl

theorem copyCompounds_succ (s : Store A) {n : Nat} {cs : List (Compound A)} {r : Renaming}
    {a : List (Compound A) × Renaming × Store A} (h : s.copyCompounds n cs r = some a) :
    s.copyCompounds (n + 1) cs r = some a := by
  induction cs generalizing s r a with
  | nil => exact h
  | cons c cs ih =>
    rw [copyCompounds] at h ⊢
    split at h
    · cases h
    · next c' r' s' hc =>
      split at h
      · cases h
      · next cs' r'' s'' hcs =>
        rw [s.copyCompound_succ hc]
        simp only
        rw [ih s' hcs]
        exact h

end Store

/-! ## Unification -/

/-- The second attempt ends as the first does, unless the first was cut off. -/
def Outcome.Settles (o o' : Outcome A) : Prop := o ≠ .cutOff → o' = o

/-- Attempts with more levels that settle those with less end alike wherever they end. -/
theorem Outcome.eq_of_settles {f : Nat → Outcome A}
    (hsettles : ∀ n m, n ≤ m → (f n).Settles (f m)) {n m : Nat}
    (hn : f n ≠ .cutOff) (hm : f m ≠ .cutOff) : f n = f m := by
  rw [← hsettles n _ (Nat.le_max_left n m) hn, ← hsettles m _ (Nat.le_max_right n m) hm]

theorem Outcome.Settles.andThen {o o' : Outcome A} {next next' : Session A → Outcome A}
    (ho : o.Settles o') (hnext : ∀ w, (next w).Settles (next' w)) :
    (o.andThen next).Settles (o'.andThen next') := by
  intro h
  cases o with
  | success w => rw [ho nofun]; exact hnext w h
  | failure e w => rw [ho nofun]; rfl
  | cutOff => exact absurd rfl h

theorem Outcome.Settles.undoingTo {o o' : Outcome A} (ho : o.Settles o') (mark : Nat) :
    (o.undoingTo mark).Settles (o'.undoingTo mark) := by
  intro h
  cases o with
  | success w => rw [ho nofun]
  | failure e w => rw [ho nofun]
  | cutOff => exact absurd rfl h

section unify

variable {f g : Unifier A} {n : Nat}

theorem Session.checkingOccurs_settles (w : Session A) (x : Var) (c : Compound A)
    (next : Session A → Outcome A) :
    (w.checkingOccurs n x c next).Settles (w.checkingOccurs (n + 1) x c next) := by
  intro h
  unfold checkingOccurs at h ⊢
  split
  · next hcheck =>
    rw [if_pos hcheck] at h
    -- only a check without an answer may end otherwise with more levels
    cases hb : w.store.contains x n c.toTerm with
    | none => rw [hb] at h; exact absurd rfl h
    | some b =>
      rw [hb] at h
      rw [w.store.contains_succ x hb]
      cases b with
      | false => rfl
      | true =>
        cases hr : w.store.resolvedCompound n c with
        | none =>
          rw [hr] at h
          exact absurd rfl h
        | some d =>
          simp only
          rw [w.store.resolvedCompound_succ hr]
  · rfl

theorem Session.resolveBy_settles (hfg : ∀ t u w, (f t u w).Settles (g t u w)) (x : Var)
    (c : Compound A) (w : Session A) :
    (w.resolveBy f n x c).Settles (w.resolveBy g (n + 1) x c) := by
  unfold resolveBy
  split
  · exact (hfg _ _ w).undoingTo _
  · exact checkingOccurs_settles w x c _

theorem Session.bindBy_settles (hfg : ∀ t u w, (f t u w).Settles (g t u w)) (x y : Var)
    (w : Session A) : (w.bindBy f n x y).Settles (w.bindBy g (n + 1) x y) := by
  unfold bindBy
  split
  · intro _; rfl
  · split
    · intro _; rfl
    · exact checkingOccurs_settles w y _ _
    · exact checkingOccurs_settles w x _ _
    · exact ((hfg _ _ w).undoingTo _).andThen fun _ _ => rfl

theorem unifyEach_settles (hfg : ∀ t u w, (f t u w).Settles (g t u w))
    (ps : List (Term A × Term A)) (w : Session A) :
    (unifyEach f ps w).Settles (unifyEach g ps w) := by
  induction ps generalizing w with
  | nil => intro _; rfl
  | cons p ps ih => exact (hfg p.1 p.2 w).andThen fun w => ih w

variable [DecidableEq A]

theorem unify_settles (n : Nat) (t u : Term A) (w : Session A) :
    (unify n t u w).Settles (unify (n + 1) t u w) := by
  induction n generalizing t u w with
  | zero => intro h; exact absurd rfl h
  | succ n ih =>
    cases t with
    | var x =>
      cases u with
      | var y => exact Session.bindBy_settles ih x y w
      | app g bs => exact Session.resolveBy_settles ih x ⟨g, bs⟩ w
    | app f as =>
      cases u with
      | var y => exact Session.resolveBy_settles ih y ⟨f, as⟩ w
      | app g bs =>
        rw [unify, unify]
        split
        · intro _; rfl
        · split
          · intro _; rfl
          · exact unifyEach_settles ih _ w

/-- More levels do not change how an attempt ends. -/
theorem unify_mono {n m : Nat} (hnm : n ≤ m) (t u : Term A) (w : Session A) :
    (unify n t u w).Settles (unify m t u w) := by
  intro ho
  induction hnm with
  | refl => rfl
  | @step m _ ih =>
    rw [unify_settles m t u w (by rw [ih]; exact ho)]
    exact ih

/-- Attempts that end do so alike, whatever the number of levels. -/
theorem unify_eq_of_ends {n m : Nat} {t u : Term A} {w : Session A}
    (hn : unify n t u w ≠ .cutOff) (hm : unify m t u w ≠ .cutOff) :
    unify n t u w = unify m t u w :=
  Outcome.eq_of_settles (f := fun n => unify n t u w) (fun _ _ hnm => unify_mono hnm t u w) hn hm

theorem unify_unique {n m : Nat} {t u : Term A} {w : Session A} {o o' : Outcome A}
    (hn : unify n t u w = o) (hm : unify m t u w = o') (ho : o ≠ .cutOff) (ho' : o' ≠ .cutOff) :
    o = o' := by
  subst hn hm
  exact unify_eq_of_ends ho ho'

theorem unifyEach_eq_of_ends {n m : Nat} {ps : List (Term A × Term A)} {w : Session A}
    (hn : unifyEach (unify n) ps w ≠ .cutOff) (hm : unifyEach (unify m) ps w ≠ .cutOff) :
    unifyEach (unify n) ps w = unifyEach (unify m) ps w :=
  Outcome.eq_of_settles (f := fun n => unifyEach (unify n) ps w)
    (fun _ _ hnm => unifyEach_settles (unify_mono hnm) ps w) hn hm

/-- The larger of two numbers of levels does for a first pair and for the rest. -/
theorem unifyEach_cons_of_success {n m : Nat} {p : Term A × Term A} {ps : List (Term A × Term A)}
    {w v : Session A} (hfirst : unify n p.1 p.2 w = .success v)
    (hrest : unifyEach (unify m) ps v ≠ .cutOff) :
    unifyEach (unify (max n m)) (p :: ps) w = unifyEach (unify m) ps v := by
  have hfirst' : unify (max n m) p.1 p.2 w = .success v := by
    rw [unify_mono (Nat.le_max_left n m) _ _ _ (by rw [hfirst]; exact nofun), hfirst]
  rw [unifyEach, hfirst']
  exact unifyEach_settles (unify_mono (Nat.le_max_right n m)) ps v hrest

end unify

end Horn
