import ForgeInfer.Foundation.Binary32
import ForgeInfer.Foundation.Greedy

/-! # Models

The contract the serving stack talks to: a pure forward pass from a context to the
next-token logits, and the token chosen greedily from them.
-/

namespace ForgeInfer

open Binary32

abbrev TokenId := UInt32

structure StepLogits where
  logits : List F32

namespace StepLogits

/-- The first index whose logit is strictly above all earlier ones and above `-inf`;
`0` when there is none. -/
def argmax (l : StepLogits) : TokenId :=
  let best := l.logits.zipIdx.foldl
    (fun best vi => if best.2 < vi.1 then (vi.2, vi.1) else best) ((0, .negInf) : ℕ × F32)
  UInt32.ofNat best.1

/-- The softmax mass of a token, over a given exponential function. -/
def probOf (exp : F32 → F32) (l : StepLogits) (token : TokenId) : F32 :=
  let top := l.logits.foldl max .negInf
  let denom := l.logits.foldl (fun d v => d + exp (v - top)) 0
  match l.logits[token.toNat]? with
  | none => 0
  | some v => exp (v - top) / denom

/-- The scan ends at where it started or at one of the logits it read. -/
theorem foldl_best {P : ℕ × F32 → Prop} (vis : List (F32 × ℕ)) (best : ℕ × F32) (hbest : P best)
    (hvis : ∀ vi ∈ vis, P (vi.2, vi.1)) :
    P (vis.foldl (fun best vi => if best.2 < vi.1 then (vi.2, vi.1) else best) best) := by
  induction vis generalizing best with
  | nil => exact hbest
  | cons vi vis ih =>
    have hnext : P (if best.2 < vi.1 then (vi.2, vi.1) else best) := by
      split
      · exact hvis vi List.mem_cons_self
      · exact hbest
    exact ih _ hnext fun x hx => hvis x (List.mem_cons_of_mem vi hx)

theorem foldl_best_of_not_lt (vis : List (F32 × ℕ)) (best : ℕ × F32)
    (hvis : ∀ vi ∈ vis, ¬best.2 < vi.1) :
    vis.foldl (fun best vi => if best.2 < vi.1 then (vi.2, vi.1) else best) best = best := by
  induction vis with
  | nil => rfl
  | cons vi vis ih =>
    rw [List.foldl_cons, if_neg (hvis vi List.mem_cons_self)]
    exact ih fun x hx => hvis x (List.mem_cons_of_mem vi hx)

theorem argmax_lt {l : StepLogits} (h : l.logits ≠ []) : l.argmax.toNat < l.logits.length := by
  rw [argmax, UInt32.toNat_ofNat']
  refine (Nat.mod_le _ _).trans_lt (foldl_best (P := fun best => best.1 < l.logits.length) _ _
    (List.length_pos_of_ne_nil h) ?_)
  rintro ⟨v, i⟩ hvi
  simpa using (List.mem_zipIdx hvi).2.1

/-- The greedy choice is the first index whose logit no other one exceeds. -/
theorem argmax_eq {l : StepLogits} {k : ℕ} {v : F32} (hk : l.logits[k]? = some v)
    (hv : .negInf < v) (hbefore : ∀ j u, j < k → l.logits[j]? = some u → u < v)
    (hafter : ∀ j u, k < j → l.logits[j]? = some u → ¬v < u) : l.argmax = UInt32.ofNat k := by
  obtain ⟨hlt, hget⟩ := List.getElem?_eq_some_iff.mp hk
  have hsplit : l.logits = l.logits.take k ++ v :: l.logits.drop (k + 1) := by
    rw [← hget, List.getElem_cons_drop, List.take_append_drop]
  have hlen : (l.logits.take k).length = k := List.length_take_of_le hlt.le
  have hlow : ((l.logits.take k).zipIdx.foldl
      (fun best vi => if best.2 < vi.1 then (vi.2, vi.1) else best) ((0, .negInf) : ℕ × F32)).2
        < v := by
    refine foldl_best (P := fun best => best.2 < v) _ _ hv ?_
    rintro ⟨u, j⟩ hj
    have hu := List.mk_mem_zipIdx_iff_getElem?.mp hj
    obtain ⟨hjk, -⟩ := List.getElem?_eq_some_iff.mp hu
    rw [hlen] at hjk
    rw [List.getElem?_take_of_lt hjk] at hu
    exact hbefore j u hjk hu
  have hhigh : ∀ vi ∈ (l.logits.drop (k + 1)).zipIdx (k + 1), ¬v < vi.1 := by
    rintro ⟨u, j⟩ hj
    obtain ⟨hkj, hu⟩ := List.mk_mem_zipIdx_iff_le_and_getElem?_sub.mp hj
    rw [List.getElem?_drop] at hu
    exact hafter j u hkj (by rwa [Nat.add_sub_cancel' hkj] at hu)
  rw [argmax, hsplit, List.zipIdx_append, List.foldl_append, List.zipIdx_cons, List.foldl_cons,
    hlen, Nat.zero_add, if_pos hlow, foldl_best_of_not_lt _ _ hhigh]

end StepLogits

structure Model where
  vocabSize : ℕ
  numLayers : ℕ
  eosToken : TokenId
  forward : List TokenId → StepLogits

namespace Model

def next (m : Model) (ctx : List TokenId) : TokenId := (m.forward ctx).argmax

/-- Plain greedy decoding: at most `n` tokens, ending at the first eos. -/
def greedy (m : Model) (prompt : List TokenId) (n : ℕ) : List TokenId :=
  Greedy.decode m.next m.eosToken prompt n

end Model

end ForgeInfer
