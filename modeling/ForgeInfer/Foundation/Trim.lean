import Mathlib.Data.List.MinMax
import Mathlib.Data.List.Sort
import Mathlib.Order.Bounds.Basic

/-! # Trimming a list by key

Remove an element of least key, again and again, until a property holds of what is left.
The removed elements are the shortest initial segment of the sorted list whose removal
achieves the property, so an element stays exactly when the elements from it upwards have
the property.
-/

namespace Trim

variable {α κ : Type*} [DecidableEq α] [LinearOrder κ]

def byKey (key : α → κ) (l : List α) : List α := l.insertionSort fun a b => key a ≤ key b

/-- The removed elements in order, and the rest. The number bounds the removals. -/
def trim (key : α → κ) (ok : List α → Prop) [DecidablePred ok] : ℕ → List α → List α × List α
  | 0, l => ([], l)
  | n + 1, l =>
    if ok l then ([], l)
    else
      match l.argmin key with
      | none => ([], l)
      | some x => (x :: (trim key ok n (l.erase x)).1, (trim key ok n (l.erase x)).2)

omit [DecidableEq α] in
theorem argmin_map {β : Type*} (g : β → α) (key : α → κ) (l : List β) :
    (l.map g).argmin key = (l.argmin (key ∘ g)).map g := by
  induction l using List.reverseRecOn with
  | nil => rfl
  | append_singleton l x ih =>
    rw [List.map_append, List.map_singleton, List.argmin_concat, List.argmin_concat, ih]
    cases l.argmin (key ∘ g) with
    | none => rfl
    | some y =>
      simp only [Option.map_some, Function.comp_apply]
      split <;> rfl

omit [DecidableEq α] in
theorem argmin_congr {κ' : Type*} [LinearOrder κ'] {key : α → κ} {key' : α → κ'}
    (h : ∀ x y, key x < key y ↔ key' x < key' y) (l : List α) :
    l.argmin key = l.argmin key' := by
  induction l using List.reverseRecOn with
  | nil => rfl
  | append_singleton l x ih =>
    rw [List.argmin_concat, List.argmin_concat, ih]
    cases l.argmin key' with
    | none => rfl
    | some y => simp only [h]

variable {key : α → κ} {ok : List α → Prop} [DecidablePred ok] {n : ℕ} {l : List α}

/-- One pass: the property holds, the list is empty, or an element of least key leaves. -/
theorem trim_cases (key : α → κ) (ok : List α → Prop) [DecidablePred ok] (n : ℕ) (l : List α) :
    (trim key ok (n + 1) l = ([], l) ∧ (ok l ∨ l = [])) ∨
    (∃ x, l.argmin key = some x ∧ ¬ok l ∧
      trim key ok (n + 1) l =
        (x :: (trim key ok n (l.erase x)).1, (trim key ok n (l.erase x)).2)) := by
  by_cases h : ok l
  · exact Or.inl ⟨by simp [trim, h], Or.inl h⟩
  · cases hx : l.argmin key with
    | none => exact Or.inl ⟨by simp [trim, h, hx], Or.inr (List.argmin_eq_none.mp hx)⟩
    | some x => exact Or.inr ⟨x, rfl, h, by simp [trim, h, hx]⟩

theorem trim_perm (n : ℕ) (l : List α) : l.Perm ((trim key ok n l).1 ++ (trim key ok n l).2) := by
  induction n generalizing l with
  | zero => exact List.Perm.refl _
  | succ n ih =>
    rcases trim_cases key ok n l with ⟨he, -⟩ | ⟨x, hx, -, he⟩
    · rw [he]; exact List.Perm.refl _
    · rw [he]
      exact (List.perm_cons_erase (List.argmin_mem hx)).trans ((ih _).cons x)

theorem rest_sublist (n : ℕ) (l : List α) : (trim key ok n l).2.Sublist l := by
  induction n generalizing l with
  | zero => exact List.Sublist.refl _
  | succ n ih =>
    rcases trim_cases key ok n l with ⟨he, -⟩ | ⟨x, -, -, he⟩
    · rw [he]
    · rw [he]; exact (ih _).trans List.erase_sublist

theorem mem_of_mem_removed {x : α} (hx : x ∈ (trim key ok n l).1) : x ∈ l :=
  (trim_perm n l).mem_iff.mpr (List.mem_append_left _ hx)

theorem length_erase_argmin {x : α} (hx : l.argmin key = some x) (hlen : l.length ≤ n + 1) :
    (l.erase x).length ≤ n := by
  rw [List.length_erase_of_mem (List.argmin_mem hx)]
  omega

theorem ok_rest (key : α → κ) (ok : List α → Prop) [DecidablePred ok] (hnil : ok [])
    (hlen : l.length ≤ n) : ok (trim key ok n l).2 := by
  induction n generalizing l with
  | zero =>
    obtain rfl := List.length_eq_zero_iff.mp (Nat.le_zero.mp hlen)
    exact hnil
  | succ n ih =>
    rcases trim_cases key ok n l with ⟨he, h | rfl⟩ | ⟨x, hx, -, he⟩
    · rw [he]; exact h
    · rw [he]; exact hnil
    · rw [he]; exact ih (length_erase_argmin hx hlen)

/-- When everything is removed, the last element to go is a greatest one, and it does not
have the property alone. -/
theorem removed_last (hne : l ≠ []) (h : (trim key ok n l).2 = []) :
    ∃ early x, (trim key ok n l).1 = early ++ [x] ∧ ¬ok [x] ∧ ∀ y ∈ early, key y ≤ key x := by
  induction n generalizing l with
  | zero => exact absurd h hne
  | succ n ih =>
    rcases trim_cases key ok n l with ⟨he, -⟩ | ⟨x, hx, hnot, he⟩
    · rw [he] at h
      exact absurd h hne
    · rw [he] at h ⊢
      by_cases hr : l.erase x = []
      · have hp := List.perm_cons_erase (List.argmin_mem hx)
        rw [hr, List.perm_singleton] at hp
        refine ⟨[], x, ?_, hp ▸ hnot, by simp⟩
        have hnil : [].Perm ((trim key ok n []).1 ++ (trim key ok n []).2) := trim_perm n []
        rw [hr, (List.append_eq_nil_iff.mp (List.nil_perm.mp hnil)).1]
        rfl
      · obtain ⟨early, z, hz, hnotz, hle⟩ := ih hr h
        refine ⟨x :: early, z, by rw [hz]; rfl, hnotz, ?_⟩
        have hmem : z ∈ l := List.mem_of_mem_erase (mem_of_mem_removed (by rw [hz]; simp))
        rintro y hy
        rcases List.mem_cons.mp hy with rfl | hy
        · exact List.le_of_mem_argmin hmem hx
        · exact hle y hy

theorem trim_of_ok (h : ok l) (n : ℕ) : trim key ok n l = ([], l) := by
  cases n with
  | zero => rfl
  | succ n => exact if_pos h

theorem trim_nil (n : ℕ) : trim key ok n [] = ([], []) := by
  cases n with
  | zero => rfl
  | succ n => simp [trim]

/-- Trimming commutes with keeping the elements of an upper set. -/
theorem trim_filter {p : α → Bool} {k : ℕ}
    (hok : ∀ {l₁ l₂ : List α}, l₁.Sublist l₂ → ok l₂ → ok l₁)
    (hp : ∀ x ∈ l, ∀ y ∈ l, p x → key x ≤ key y → p y) (hlen : l.length ≤ n)
    (hlek : (l.filter p).length ≤ k) :
    trim key ok k (l.filter p) =
      ((trim key ok n l).1.filter p, (trim key ok n l).2.filter p) := by
  induction n generalizing l k with
  | zero =>
    obtain rfl := List.length_eq_zero_iff.mp (Nat.le_zero.mp hlen)
    exact trim_nil k
  | succ n ih =>
    rcases trim_cases key ok n l with ⟨he, h | rfl⟩ | ⟨x, hx, hnot, he⟩
    · rw [he, trim_of_ok (hok List.filter_sublist h)]
      rfl
    · rw [he, List.filter_nil, trim_nil]
    · have hmem := List.argmin_mem hx
      have hrest := length_erase_argmin hx hlen
      have hpe : ∀ a ∈ l.erase x, ∀ b ∈ l.erase x, p a → key a ≤ key b → p b := fun a ha b hb =>
        hp a (List.mem_of_mem_erase ha) b (List.mem_of_mem_erase hb)
      rw [he]
      by_cases hpx : p x
      · -- the element of least key is in the upper set, so all of them are
        have hall : ∀ y ∈ l, p y := fun y hy => hp x hmem y hy hpx (List.le_of_mem_argmin hy hx)
        have hl : l.filter p = l := List.filter_eq_self.mpr hall
        have hle : (l.erase x).filter p = l.erase x :=
          List.filter_eq_self.mpr fun y hy => hall y (List.mem_of_mem_erase hy)
        rw [hl] at hlek ⊢
        obtain ⟨j, rfl⟩ : ∃ j, k = j + 1 := Nat.exists_eq_add_one_of_ne_zero fun hz =>
          absurd (List.length_pos_of_mem hmem) (by omega)
        have hsame := ih (k := j) hpe hrest
          ((List.length_filter_le _ _).trans (length_erase_argmin hx hlek))
        rw [hle] at hsame
        rw [trim, if_neg hnot, hx, List.filter_cons_of_pos hpx]
        simp only [hsame]
      · have hle : (l.erase x).filter p = l.filter p := by
          rw [← List.erase_filter]
          exact List.erase_of_not_mem fun hm => hpx (List.mem_filter.mp hm).2
        have hsame := ih (k := k) hpe hrest (hle ▸ hlek)
        rw [hle] at hsame
        rw [hsame, List.filter_cons_of_neg hpx]

section Distinct

omit [LinearOrder κ] in
theorem nodup_erase (h : (l.map key).Nodup) (x : α) : ((l.erase x).map key).Nodup :=
  h.sublist (List.erase_sublist.map key)

theorem key_lt_of_mem_erase (h : (l.map key).Nodup) {x y : α} (hx : l.argmin key = some x)
    (hy : y ∈ l.erase x) : key x < key y := by
  have hyl := List.mem_of_mem_erase hy
  refine lt_of_le_of_ne (List.le_of_mem_argmin hyl hx) fun he => ?_
  obtain rfl := List.inj_on_of_nodup_map h (List.argmin_mem hx) hyl he
  exact h.of_map.not_mem_erase hy

theorem removed_lt_rest (h : (l.map key).Nodup) {x y : α} (hx : x ∈ (trim key ok n l).1)
    (hy : y ∈ (trim key ok n l).2) : key x < key y := by
  induction n generalizing l with
  | zero => cases hx
  | succ n ih =>
    rcases trim_cases key ok n l with ⟨he, -⟩ | ⟨z, hz, -, he⟩
    · rw [he] at hx; cases hx
    · rw [he] at hx hy
      rcases List.mem_cons.mp hx with rfl | hx
      · exact key_lt_of_mem_erase h hz ((rest_sublist _ _).subset hy)
      · exact ih (nodup_erase h z) hx hy

theorem removed_ascending (h : (l.map key).Nodup) :
    (trim key ok n l).1.Pairwise fun x y => key x < key y := by
  induction n generalizing l with
  | zero => exact List.Pairwise.nil
  | succ n ih =>
    rcases trim_cases key ok n l with ⟨he, -⟩ | ⟨z, hz, -, he⟩
    · rw [he]; exact List.Pairwise.nil
    · rw [he]
      refine List.pairwise_cons.mpr ⟨?_, ih (nodup_erase h z)⟩
      intro y hy
      exact key_lt_of_mem_erase h hz (mem_of_mem_removed hy)

omit [DecidableEq α] in
theorem byKey_perm (key : α → κ) (l : List α) : (byKey key l).Perm l := List.perm_insertionSort _ l

omit [DecidableEq α] in
theorem byKey_ascending (h : (l.map key).Nodup) :
    (byKey key l).Pairwise fun x y => key x < key y := by
  have hle : (byKey key l).Pairwise fun x y => key x ≤ key y := by
    have : Std.Total fun a b : α => key a ≤ key b := ⟨fun a b => le_total (key a) (key b)⟩
    have : IsTrans α fun a b => key a ≤ key b := ⟨fun _ _ _ => le_trans⟩
    exact List.pairwise_insertionSort _ l
  have hne : (byKey key l).Pairwise fun x y => key x ≠ key y :=
    List.pairwise_map.mp (((byKey_perm key l).map key).nodup_iff.mpr h)
  exact hle.imp₂ (fun x y hxy hn => lt_of_le_of_ne hxy hn) hne

omit [DecidableEq α] in
theorem eq_of_ascending {l₁ l₂ : List α} (h₁ : l₁.Pairwise fun x y => key x < key y)
    (h₂ : l₂.Pairwise fun x y => key x < key y) (hp : l₁.Perm l₂) : l₁ = l₂ :=
  hp.eq_of_pairwise (fun _ _ _ _ hxy hyx => absurd hxy hyx.asymm) h₁ h₂

theorem byKey_eq_append (ok : List α → Prop) [DecidablePred ok] (h : (l.map key).Nodup) (n : ℕ) :
    byKey key l = (trim key ok n l).1 ++ byKey key (trim key ok n l).2 := by
  have hr : (((trim key ok n l).2).map key).Nodup := h.sublist ((rest_sublist n l).map key)
  refine eq_of_ascending (byKey_ascending h) ?_ ?_
  · refine List.pairwise_append.mpr ⟨removed_ascending h, byKey_ascending hr, ?_⟩
    intro x hx y hy
    exact removed_lt_rest h hx ((byKey_perm key _).mem_iff.mp hy)
  · exact (byKey_perm key l).trans ((trim_perm n l).trans ((byKey_perm key _).symm.append_left _))

/-- The removed elements are the shortest initial segment of the sorted list without which
the property holds. -/
theorem isLeast_removed (h : (l.map key).Nodup) (hnil : ok [])
    (hok : ∀ {l₁ l₂ : List α}, l₁.Perm l₂ → ok l₁ → ok l₂) (hlen : l.length ≤ n) :
    IsLeast {k | ok ((byKey key l).drop k)} (trim key ok n l).1.length := by
  constructor
  · have hr := ok_rest key ok hnil hlen
    simp only [Set.mem_ofPred_eq, byKey_eq_append ok h n, List.drop_left]
    exact hok (byKey_perm key _).symm hr
  · intro k hk
    induction n generalizing l k with
    | zero => exact Nat.zero_le k
    | succ n ih =>
      rcases trim_cases key ok n l with ⟨he, -⟩ | ⟨x, hx, hnot, he⟩
      · rw [he]; exact Nat.zero_le k
      · have hs : byKey key l = x :: byKey key (l.erase x) := by
          have hx' := nodup_erase h x
          refine eq_of_ascending (byKey_ascending h) ?_ ?_
          · refine List.pairwise_cons.mpr ⟨?_, byKey_ascending hx'⟩
            intro y hy
            exact key_lt_of_mem_erase h hx ((byKey_perm key _).mem_iff.mp hy)
          · exact (byKey_perm key l).trans ((List.perm_cons_erase (List.argmin_mem hx)).trans
              ((byKey_perm key _).symm.cons x))
        cases k with
        | zero => exact absurd (hok (byKey_perm key l) hk) hnot
        | succ k =>
          simp only [Set.mem_ofPred_eq, hs, List.drop_succ_cons] at hk
          rw [he, List.length_cons]
          exact Nat.succ_le_succ (ih (nodup_erase h x) (length_erase_argmin hx hlen) hk)

theorem mem_rest_iff (h : (l.map key).Nodup)
    (hok : ∀ {l₁ l₂ : List α}, l₁.Sublist l₂ → ok l₂ → ok l₁) (hlen : l.length ≤ n) {x : α}
    (hx : x ∈ l) : x ∈ (trim key ok n l).2 ↔ ok (l.filter fun y => key x ≤ key y) := by
  induction n generalizing l with
  | zero =>
    obtain rfl := List.length_eq_zero_iff.mp (Nat.le_zero.mp hlen)
    cases hx
  | succ n ih =>
    rcases trim_cases key ok n l with ⟨he, hl⟩ | ⟨y, hy, hnot, he⟩
    · rw [he]
      rcases hl with hl | rfl
      · exact iff_of_true hx (hok List.filter_sublist hl)
      · cases hx
    · rw [he]
      by_cases hxy : x = y
      · subst hxy
        have hall : (l.filter fun z => key x ≤ key z) = l := by
          rw [List.filter_eq_self]
          intro z hz
          exact decide_eq_true (List.le_of_mem_argmin hz hy)
        rw [hall]
        refine iff_of_false (fun hmem => ?_) hnot
        exact h.of_map.not_mem_erase ((rest_sublist _ _).subset hmem)
      · have hxe : x ∈ l.erase y := (List.mem_erase_of_ne hxy).mpr hx
        have hlt := key_lt_of_mem_erase h hy hxe
        have hsame : (l.filter fun z => key x ≤ key z) =
            (l.erase y).filter fun z => key x ≤ key z := by
          rw [← List.erase_filter]
          refine (List.erase_of_not_mem fun hmem => ?_).symm
          have hle := of_decide_eq_true (List.mem_filter.mp hmem).2
          exact absurd hlt (not_lt.mpr hle)
        rw [hsame]
        exact ih (nodup_erase h y) (length_erase_argmin hy hlen) hxe

theorem rest_eq_nil (h : (l.map key).Nodup)
    (hok : ∀ {l₁ l₂ : List α}, l₁.Sublist l₂ → ok l₂ → ok l₁) (hlen : l.length ≤ n) {x : α}
    (hx : x ∈ l) (hnot : ¬ok [x]) (hle : ∀ y ∈ l, key y ≤ key x) :
    (trim key ok n l).2 = [] := by
  rw [List.eq_nil_iff_forall_not_mem]
  intro y hy
  have hyl := (rest_sublist n l).subset hy
  apply hnot
  refine hok ?_ ((mem_rest_iff h hok hlen hyl).mp hy)
  exact List.singleton_sublist.mpr (List.mem_filter.mpr ⟨hx, decide_eq_true (hle y hyl)⟩)

end Distinct

end Trim
