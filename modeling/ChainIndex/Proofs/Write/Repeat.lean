import Mathlib.Data.List.Induction

/-!
Runs of steps taken a second time. A run changes nothing more if each of its steps is settled once it is
taken, or if every step makes good what it undid of a later one.
-/
namespace ChainIndex
namespace Steps

variable {σ α : Type} {f : σ → α → σ} {xs : List α}

theorem foldl_eq_self {s : σ} (h : ∀ x ∈ xs, f s x = s) : xs.foldl f s = s := by
  induction xs with
  | nil => rfl
  | cons x rest ih =>
    obtain ⟨hx, hrest⟩ := List.forall_mem_cons.1 h
    rw [List.foldl_cons, hx, ih hrest]

/-- What one step settles for good is settled at the end. -/
theorem foldl_of_settled {P : σ → Prop} (kept : ∀ y ∈ xs, ∀ s, P s → P (f s y)) {x : α} (hx : x ∈ xs)
    (settles : ∀ s, P (f s x)) (s : σ) : P (xs.foldl f s) := by
  induction xs generalizing s with
  | nil => cases hx
  | cons y rest ih =>
    obtain ⟨hy, hrest⟩ := List.forall_mem_cons.1 kept
    rcases List.mem_cons.1 hx with rfl | hx
    · exact List.foldlRecOn rest f (settles s) fun t ht z hz => hrest z hz t ht
    · exact ih hrest hx (f s y)

/-- Steps that are settled once they are taken, and stay so. -/
theorem foldl_foldl_of_kept (idem : ∀ x ∈ xs, ∀ s, f (f s x) x = f s x)
    (kept : ∀ x ∈ xs, ∀ y ∈ xs, ∀ s, f s x = s → f (f s y) x = f s y) (s : σ) :
    xs.foldl f (xs.foldl f s) = xs.foldl f s :=
  foldl_eq_self fun x hx =>
    foldl_of_settled (P := fun t => f t x = t) (kept x hx) hx (idem x hx) s

/-- A run one step of which forgets all that was before. -/
theorem foldl_eq_foldl_of_constant {x : α} (hx : x ∈ xs) (constant : ∀ s t, f s x = f t x) (s t : σ) :
    xs.foldl f s = xs.foldl f t := by
  induction xs generalizing s t with
  | nil => cases hx
  | cons y rest ih =>
    rcases List.mem_cons.1 hx with rfl | hx
    · rw [List.foldl_cons, List.foldl_cons, constant s t]
    · exact ih hx (f s y) (f t y)

section Overridden

variable {P : σ → Prop} (preserved : ∀ x ∈ xs, ∀ s, P s → P (f s x))
  (idem : ∀ x ∈ xs, ∀ s, P s → f (f s x) x = f s x)
  (regular : ∀ x ∈ xs, ∀ y ∈ xs, ∀ s, P s → f (f (f s x) y) x = f (f s y) x)

include preserved idem regular

/-- A step that is taken later anyway need not have been taken before. -/
theorem step_foldl_step {x : α} (hx : x ∈ xs) {ys : List α} (hys : ∀ y ∈ ys, y ∈ xs) {s : σ} (hs : P s) :
    f (ys.foldl f (f s x)) x = f (ys.foldl f s) x := by
  induction ys using List.reverseRecOn with
  | nil => exact idem x hx s hs
  | append_singleton ys y ih =>
    have hy : y ∈ xs := hys y (by simp)
    have hrest : ∀ z ∈ ys, z ∈ xs := fun z hz => hys z (List.mem_append_left _ hz)
    have hfold (t : σ) (ht : P t) : P (ys.foldl f t) :=
      List.foldlRecOn _ _ ht fun u hu z hz => preserved z (hrest z hz) u hu
    rw [List.foldl_append, List.foldl_append]
    simp only [List.foldl_cons, List.foldl_nil]
    calc f (f (ys.foldl f (f s x)) y) x
        = f (f (f (ys.foldl f (f s x)) x) y) x := (regular x hx y hy _ (hfold _ (preserved x hx s hs))).symm
      _ = f (f (f (ys.foldl f s) x) y) x := by rw [ih hrest]
      _ = f (f (ys.foldl f s) y) x := regular x hx y hy _ (hfold s hs)

/-- Steps that are all made again later may be left out. -/
theorem foldl_foldl_of_subset {us vs : List α} (hus : us ⊆ vs) (hvs : vs ⊆ xs) {s : σ} (hs : P s) :
    vs.foldl f (us.foldl f s) = vs.foldl f s := by
  induction us generalizing s with
  | nil => rfl
  | cons x rest ih =>
    obtain ⟨hx, hrest⟩ := List.cons_subset.1 hus
    have hsx := preserved x (hvs hx) s hs
    rw [List.foldl_cons, ih hrest hsx]
    obtain ⟨before, after, rfl⟩ := List.append_of_mem hx
    have hbefore : ∀ y ∈ before, y ∈ xs := fun y hy => hvs (List.mem_append_left _ hy)
    simp only [List.foldl_append, List.foldl_cons]
    rw [step_foldl_step preserved idem regular (hvs hx) hbefore hs]

/-- Of two steps the later one overrides what the earlier did, so a run forgets earlier runs. -/
theorem foldl_foldl_of_regular {s : σ} (hs : P s) : xs.foldl f (xs.foldl f s) = xs.foldl f s :=
  foldl_foldl_of_subset preserved idem regular (List.Subset.refl xs) (List.Subset.refl xs) hs

end Overridden

end Steps
end ChainIndex
