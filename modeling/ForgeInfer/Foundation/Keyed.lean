import Mathlib.Data.List.AList
import Mathlib.Algebra.BigOperators.Group.List.Basic

/-! # Keyed lists

Association lists as finite maps: an entry can be brought to the front, and what a
replacement or a removal leaves is the rest.
-/

namespace Keyed

variable {α : Type*} {β : α → Type*} [DecidableEq α]

theorem perm_cons_kerase {l : List (Sigma β)} {a : α} {b : β a} (h : l.dlookup a = some b) :
    l.Perm (⟨a, b⟩ :: l.kerase a) := by
  induction l with
  | nil => simp at h
  | cons e l ih =>
    obtain ⟨a', b'⟩ := e
    by_cases he : a = a'
    · subst he
      rw [List.dlookup_cons_eq, Option.some.injEq] at h
      subst h
      have hk : List.kerase a (⟨a, b'⟩ :: l) = l := List.kerase_cons_eq rfl
      rw [hk]
    · rw [List.dlookup_cons_ne _ ⟨a', b'⟩ he] at h
      rw [List.kerase_cons_ne he]
      exact ((ih h).cons _).trans (.swap _ _ _)

theorem entries_perm_cons_erase {s : AList β} {a : α} {b : β a} (h : s.lookup a = some b) :
    s.entries.Perm (⟨a, b⟩ :: (s.erase a).entries) :=
  perm_cons_kerase h

theorem entries_insert_eq (s : AList β) (a : α) (b : β a) :
    (s.insert a b).entries = ⟨a, b⟩ :: (s.erase a).entries :=
  AList.entries_insert

theorem erase_insert_of_notMem {s : AList β} {a : α} (h : a ∉ s) (b : β a) :
    (s.insert a b).erase a = s := by
  apply AList.ext
  change ((s.insert a b).entries).kerase a = s.entries
  rw [AList.entries_insert_of_notMem h]
  exact List.kerase_cons_eq rfl

theorem mem_entries_iff {s : AList β} {a : α} {b : β a} :
    (⟨a, b⟩ : Sigma β) ∈ s.entries ↔ s.lookup a = some b :=
  (List.mem_dlookup_iff s.nodupKeys).symm

section Map

variable {γ : α → Type*} (f : ∀ a, β a → γ a)

theorem kerase_map (a : α) (l : List (Sigma β)) :
    (l.map (Sigma.map id f)).kerase a = (l.kerase a).map (Sigma.map id f) := by
  induction l with
  | nil => rfl
  | cons e l ih =>
    by_cases he : a = e.1
    · have h₁ : List.kerase a (e :: l) = l := List.kerase_cons_eq he
      have h₂ : List.kerase a (Sigma.map id f e :: l.map (Sigma.map id f)) =
          l.map (Sigma.map id f) := List.kerase_cons_eq he
      rw [h₁, List.map_cons, h₂]
    · have h₁ : List.kerase a (e :: l) = e :: l.kerase a := List.kerase_cons_ne he
      have h₂ : List.kerase a (Sigma.map id f e :: l.map (Sigma.map id f)) =
          Sigma.map id f e :: (l.map (Sigma.map id f)).kerase a := List.kerase_cons_ne he
      rw [h₁, List.map_cons, h₂, ih, List.map_cons]

def mapValues (s : AList β) : AList γ where
  entries := s.entries.map (Sigma.map id f)
  nodupKeys := s.nodupKeys.map₂ f

theorem lookup_mapValues (s : AList β) (a : α) :
    (mapValues f s).lookup a = (s.lookup a).map (f a) :=
  List.dlookup_map₂ a

theorem mem_mapValues {s : AList β} {a : α} : a ∈ mapValues f s ↔ a ∈ s := by
  rw [← AList.lookup_isSome, lookup_mapValues, Option.isSome_map, AList.lookup_isSome]

theorem mapValues_erase (s : AList β) (a : α) :
    mapValues f (s.erase a) = (mapValues f s).erase a :=
  AList.ext (kerase_map f a s.entries).symm

theorem mapValues_insert (s : AList β) (a : α) (b : β a) :
    mapValues f (s.insert a b) = (mapValues f s).insert a (f a b) := by
  apply AList.ext
  rw [entries_insert_eq, ← mapValues_erase]
  simp only [mapValues, entries_insert_eq, List.map_cons]
  rfl

end Map

section Rename

variable {δ γ : Type*} [DecidableEq δ] (f : α → δ) (hf : Function.Injective f)
  (s : AList fun _ : α => γ) (a : α)

/-- Rename the keys of a finite map, different ones differently. -/
def mapKeys : AList fun _ : δ => γ where
  entries := s.entries.map (Sigma.map f fun _ => id)
  nodupKeys := s.nodupKeys.map₁ f hf

@[simp] theorem lookup_mapKeys : (mapKeys f hf s).lookup (f a) = s.lookup a :=
  List.dlookup_map₁ s.entries hf a

@[simp] theorem mem_mapKeys : f a ∈ mapKeys f hf s ↔ a ∈ s := by
  rw [← AList.lookup_isSome, lookup_mapKeys, AList.lookup_isSome]

omit [DecidableEq α] [DecidableEq δ] in
@[simp] theorem mapKeys_empty : mapKeys f hf (∅ : AList fun _ : α => γ) = ∅ := rfl

omit [DecidableEq α] [DecidableEq δ] in
theorem mapKeys_eq_iff {g : α → δ} {hg : Function.Injective g} :
    mapKeys f hf s = mapKeys g hg s ↔ ∀ a ∈ s.keys, f a = g a := by
  rw [AList.ext_iff]
  simp only [mapKeys, List.map_inj_left, AList.keys, List.keys, List.forall_mem_map, Sigma.map]
  refine forall₂_congr fun e _ => ⟨fun h => congrArg Sigma.fst h, fun h => ?_⟩
  rw [h]

theorem mapKeys_erase : mapKeys f hf (s.erase a) = (mapKeys f hf s).erase (f a) := by
  have hkerase : ∀ l : List (Σ _ : α, γ),
      (l.kerase a).map (Sigma.map f fun _ => id) =
        List.kerase (f a) (l.map (Sigma.map f fun _ => id) : List (Σ _ : δ, γ)) := by
    intro l
    induction l with
    | nil => rfl
    | cons e l ih =>
      by_cases he : a = e.1
      · have hfe : f a = (Sigma.map f (fun _ => id) e : Σ _ : δ, γ).1 := congrArg f he
        rw [List.kerase_cons_eq he, List.map_cons, List.kerase_cons_eq hfe]
      · have hfe : f a ≠ (Sigma.map f (fun _ => id) e : Σ _ : δ, γ).1 := fun h => he (hf h)
        rw [List.kerase_cons_ne he, List.map_cons, List.map_cons, List.kerase_cons_ne hfe, ih]
  exact AList.ext (hkerase s.entries)

theorem mapKeys_insert (b : γ) :
    mapKeys f hf (s.insert a b) = (mapKeys f hf s).insert (f a) b := by
  apply AList.ext
  rw [entries_insert_eq, ← mapKeys_erase]
  simp only [mapKeys, entries_insert_eq, List.map_cons]
  rfl

end Rename

end Keyed
