import Horn.Proofs.CopyLooks
import Horn.Proofs.Printing
import Horn.Proofs.Solutions

/-! # Walks that end

    Of a term whose values can be followed to the end every walk comes to an answer, and
    so does every walk of an acyclic store: `Acyclic.walksEnd`.

    The number of levels is that of the longest way through the values, so it is not the
    same for all terms; but for each term, and each walk that is taken on it, there is
    one that is large enough. -/

namespace Horn

universe u v

variable {A : Type u}

/-! ## Lists of answers -/

section lists

variable {α : Type u} {β : Type v}

/-- If every element has an answer, the question for all has one. -/
theorem allM_isSome {f : α → Option Bool} {as : List α} (h : ∀ a ∈ as, ∃ b, f a = some b) :
    ∃ b, as.allM f = some b := by
  induction as with
  | nil => exact ⟨true, rfl⟩
  | cons a as ih =>
    obtain ⟨b, hb⟩ := h a (List.mem_cons_self ..)
    obtain ⟨b', hb'⟩ := ih fun a' ha' => h a' (List.mem_cons_of_mem _ ha')
    rw [List.allM_cons, hb]
    cases b with
    | true => exact ⟨b', hb'⟩
    | false => exact ⟨false, rfl⟩

theorem foldlM_mono {f g : β → α → Option β} {as : List α}
    (h : ∀ b a b', f b a = some b' → g b a = some b') {b b' : β}
    (hf : as.foldlM f b = some b') : as.foldlM g b = some b' := by
  induction as generalizing b with
  | nil => exact hf
  | cons a as ih =>
    rw [List.foldlM_cons] at hf ⊢
    obtain ⟨b₁, hb₁, hf⟩ := Option.bind_eq_some_iff.mp hf
    rw [h b a b₁ hb₁]
    exact ih hf

theorem foldlM_isSome {f : β → α → Option β} {as : List α}
    (h : ∀ a ∈ as, ∀ b, ∃ b', f b a = some b') (b : β) : ∃ b', as.foldlM f b = some b' := by
  induction as generalizing b with
  | nil => exact ⟨b, rfl⟩
  | cons a as ih =>
    obtain ⟨b₁, hb₁⟩ := h a (List.mem_cons_self ..) b
    obtain ⟨b', hb'⟩ := ih (fun a' ha' => h a' (List.mem_cons_of_mem _ ha')) b₁
    exact ⟨b', by rw [List.foldlM_cons, hb₁]; exact hb'⟩

end lists

namespace Store

variable {s : Store A}

/-! ## One walk after the other -/

theorem ground_succ {n : Nat} {t : Term A} {b : Bool} (h : s.ground n t = some b) :
    s.ground (n + 1) t = some b := by
  induction n generalizing t b with
  | zero => cases h
  | succ n ih =>
    rw [ground] at h ⊢
    split at h
    · exact h
    · exact allM_mono (fun _ _ => ih) h

theorem collect_succ {n : Nat} {found found' : List Var} {t : Term A}
    (h : s.collect n found t = some found') : s.collect (n + 1) found t = some found' := by
  induction n generalizing found found' t with
  | zero => cases h
  | succ n ih =>
    cases t with
    | app f as => exact foldlM_mono (fun _ _ _ => ih) h
    | var x =>
      rw [collect] at h ⊢
      split at h
      · exact h
      · exact foldlM_mono (fun _ _ _ => ih) h

theorem Ends.ground {t : Term A} (h : s.Ends t) : ∃ n b, s.ground n t = some b := by
  induction h with
  | @unbound x hx => exact ⟨1, false, by rw [Store.ground, view, hx]⟩
  | @bound x v hv _ ih =>
    obtain ⟨n, b, hn⟩ := ih
    cases n with
    | zero => cases hn
    | succ n => exact ⟨n + 1, b, by rw [Store.ground, view, hv]; exact hn⟩
  | @app f as _ ih =>
    obtain ⟨n, hn⟩ := exists_level (P := fun n a => ∃ b, s.ground n a = some b)
      (fun _ _ h => h.imp fun _ => ground_succ) ih
    obtain ⟨b, hb⟩ := allM_isSome hn
    exact ⟨n + 1, b, hb⟩

theorem Ends.collect {t : Term A} (h : s.Ends t) :
    ∃ n, ∀ found, ∃ found', s.collect n found t = some found' := by
  induction h with
  | @unbound x hx => exact ⟨1, fun found => ⟨_, by rw [Store.collect, hx]⟩⟩
  | @bound x v hv _ ih =>
    obtain ⟨n, hn⟩ := ih
    cases n with
    | zero =>
      obtain ⟨_, h₀⟩ := hn []
      cases h₀
    | succ n =>
      refine ⟨n + 1, fun found => ?_⟩
      rw [Store.collect, hv]
      exact hn found
  | @app f as _ ih =>
    obtain ⟨n, hn⟩ := exists_level
      (P := fun n a => ∀ found, ∃ found', s.collect n found a = some found')
      (fun n a hn found => (hn found).imp fun _ => collect_succ) ih
    exact ⟨n + 1, foldlM_isSome hn⟩

section same

variable [DecidableEq A]

/-- Compounds can be compared if the arguments of the first can be compared with any
    term. -/
theorem exists_alike {c : Compound A}
    (h : ∀ a ∈ c.args, ∀ u, ∃ n b, s.same n a u = some b) (d : Option (Compound A)) :
    ∃ n b, alike (s.same n) (some c) d = some b := by
  cases d with
  | none => exact ⟨0, false, rfl⟩
  | some d =>
    have hpairs : ∀ p ∈ c.args.zip d.args, ∃ n b, s.same n p.1 p.2 = some b := fun p hp =>
      h p.1 (List.of_mem_zip hp).1 p.2
    obtain ⟨n, hn⟩ := exists_level
      (P := fun n (p : Term A × Term A) => ∃ b, s.same n p.1 p.2 = some b)
      (fun n p ⟨b, hb⟩ => ⟨b, s.same_succ hb⟩) hpairs
    obtain ⟨b, hb⟩ := allM_isSome hn
    by_cases hsig : c.signature = d.signature
    · exact ⟨n, b, by rw [alike, if_pos hsig]; exact hb⟩
    · exact ⟨n, false, by rw [alike, if_neg hsig]⟩

/-- A term that ends can be compared with any other: the walk goes no deeper than this
    one does. -/
theorem Ends.same {t : Term A} (h : s.Ends t) (u : Term A) : ∃ n b, s.same n t u = some b := by
  induction h generalizing u with
  | @unbound x hx =>
    -- an unbound variable is the same as those of its class and as nothing else
    rcases s.same_cases (.var x) u with ⟨-, -, -, -, -, hsame⟩ | hsame
    · exact ⟨1, true, hsame 0⟩
    · exact ⟨1, false, by rw [hsame, view, hx]; rfl⟩
  | @bound x v hv _ ih =>
    obtain ⟨n, b, hn⟩ := ih u
    cases n with
    | zero => cases hn
    | succ n =>
      rcases s.same_cases (.var x) u with ⟨-, -, -, -, -, hsame⟩ | hsame
      · exact ⟨n + 1, true, hsame n⟩
      · rw [Compound.toTerm, same_app] at hn
        exact ⟨n + 1, b, by rw [hsame, view, hv, hn]⟩
  | @app f as _ ih =>
    obtain ⟨n, b, hn⟩ := exists_alike (c := ⟨f, as⟩) ih (s.view u)
    exact ⟨n + 1, b, by rw [same_app]; exact hn⟩

/-! ## All of them -/

/-- Every walk through the store comes to an answer, whatever term it starts from. -/
structure WalksEnd (s : Store A) : Prop where
  resolved : ∀ t, ∃ n u, s.resolved n t = some u
  same : ∀ t u, ∃ n b, s.same n t u = some b
  contains : ∀ x t, ∃ n b, s.contains x n t = some b
  freeVars : ∀ t, ∃ n xs, s.freeVars n t = some xs
  ground : ∀ t, ∃ n b, s.ground n t = some b
  copy : ∀ t r, ∃ n c, s.copy n t r = some c
  printed : ∀ [Symbol A] style t, ∃ n txt, s.printed style n t = some txt
  text : ∀ [Symbol A] style t, ∃ n txt, s.text n style t = some txt

/-- In an acyclic store every walk ends. -/
theorem Acyclic.walksEnd (hs : s.Acyclic) : s.WalksEnd where
  resolved t := (hs.ends t).resolved
  same t u := (hs.ends t).same u
  contains x t := (hs.ends t).contains x
  freeVars t := (hs.ends t).collect.imp fun _ hn => hn []
  ground t := (hs.ends t).ground
  copy t r := by
    obtain ⟨n, c, hn⟩ := (hs.ends t).copyTerm ⟨r, s.nextVar⟩
    exact ⟨n, _, by rw [Store.copy, copying, hn]; rfl⟩
  printed style t := by
    obtain ⟨n, u, hn⟩ := (hs.ends t).resolved
    exact ⟨n, u.text style, by rw [Store.printed_eq_text, Store.text, hn]; rfl⟩
  text style t := by
    obtain ⟨n, u, hn⟩ := (hs.ends t).resolved
    exact ⟨n, u.text style, by rw [Store.text, hn]; rfl⟩

end same

end Store

end Horn
