import Mathlib.Data.List.Pairwise
import Mathlib.Data.List.Nodup
import Mathlib.Data.List.Lattice

/-! # Paged addressing

An array kept in pages of `b` places: item `i` is in page `i / b`, at place `i % b`. More
pages leave the items where they are, and items of arrays with distinct pages never meet.
-/

namespace Paging

variable {ι α : Type*} {b i j : ℕ} {pages : List α} {p : α × ℕ}

/-- The page of an item, and its place in the page. -/
def place (b : ℕ) (pages : List α) (i : ℕ) : Option (α × ℕ) :=
  pages[i / b]?.map fun page => (page, i % b)

theorem place_eq_some_iff :
    place b pages i = some p ↔ pages[i / b]? = some p.1 ∧ i % b = p.2 := by
  obtain ⟨page, o⟩ := p
  rw [place, Option.map_eq_some_iff]
  constructor
  · rintro ⟨page', hpage, he⟩
    obtain ⟨rfl, rfl⟩ := Prod.mk.inj he
    exact ⟨hpage, rfl⟩
  · rintro ⟨hpage, rfl⟩
    exact ⟨page, hpage, rfl⟩

theorem isSome_place (hb : 0 < b) : (place b pages i).isSome ↔ i < pages.length * b := by
  rw [place, Option.isSome_map, isSome_getElem?, Nat.div_lt_iff_lt_mul hb]

theorem place_append (h : place b pages i = some p) (more : List α) :
    place b (pages ++ more) i = some p := by
  obtain ⟨hpage, ho⟩ := place_eq_some_iff.mp h
  have hlt : i / b < pages.length := (List.getElem?_eq_some_iff.mp hpage).1
  exact place_eq_some_iff.mpr ⟨(List.getElem?_append_left hlt).trans hpage, ho⟩

theorem mem_of_place (h : place b pages i = some p) : p.1 ∈ pages :=
  List.mem_of_getElem? (place_eq_some_iff.mp h).1

theorem place_injective (hn : pages.Nodup) (hi : place b pages i = some p)
    (hj : place b pages j = some p) : i = j := by
  obtain ⟨hpi, hoi⟩ := place_eq_some_iff.mp hi
  obtain ⟨hpj, hoj⟩ := place_eq_some_iff.mp hj
  have hlt : i / b < pages.length := (List.getElem?_eq_some_iff.mp hpi).1
  have hdiv : i / b = j / b := (List.getElem?_inj hlt hn).mp (hpi.trans hpj.symm)
  calc i = b * (i / b) + i % b := (Nat.div_add_mod i b).symm
    _ = b * (j / b) + j % b := by rw [hdiv, hoi, hoj]
    _ = j := Nat.div_add_mod j b

theorem place_injective_flatMap {arrays : List ι} {f : ι → List α}
    (hn : (arrays.flatMap f).Nodup) {x y : ι} (hx : x ∈ arrays) (hy : y ∈ arrays)
    (hi : place b (f x) i = some p) (hj : place b (f y) j = some p) : x = y ∧ i = j := by
  obtain ⟨hnodup, hdisjoint⟩ := List.nodup_flatMap.mp hn
  have hxy : x = y := by
    by_contra hne
    have hsymm : Std.Symm (Function.onFun List.Disjoint f) := ⟨fun _ _ h => List.Disjoint.symm h⟩
    exact hdisjoint.forall hx hy hne (mem_of_place hi) (mem_of_place hj)
  subst hxy
  exact ⟨rfl, place_injective (hnodup x hx) hi hj⟩

end Paging
