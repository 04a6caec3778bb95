import ForgeInfer.Foundation.Memory
import ForgeInfer.Model.Hash
import Mathlib.Data.Fintype.BigOperators

/-! # The deterministic model remembers eight tokens

Past its pins the model chooses by the last eight tokens. So longer contexts with the same
end are continued alike; and as there are finitely many windows, an eos that does not follow
within as many tokens never does.
-/

namespace ForgeInfer.TinyTransformer

variable {m : TinyTransformer} {ctx w : List TokenId}

def unpinned (m : TinyTransformer) : TinyTransformer := { m with pinned := ∅ }

theorem length_window (h : 8 ≤ ctx.length) : (window ctx).length = 8 := by
  rw [window, List.length_drop]
  omega

theorem window_append_window (h : 8 ≤ ctx.length) (toks : List TokenId) :
    window (ctx ++ toks) = window (window ctx ++ toks) := by
  have hsplit : ctx = ctx.take (ctx.length - 8) ++ window ctx := (List.take_append_drop _ _).symm
  have hlen := length_window h
  conv_lhs => rw [hsplit, List.append_assoc]
  exact window_append (by rw [List.length_append]; omega) _

theorem window_window (h : 8 ≤ ctx.length) : window (window ctx) = window ctx := by
  simpa using (window_append_window h []).symm

theorem greedyToken_window (h : 8 ≤ ctx.length) (hpin : m.pinned.lookup ctx = none) :
    m.greedyToken ctx = m.unpinned.greedyToken (window ctx) := by
  have hlen := length_window h
  have hhash : m.unpinned.hashContext (window ctx) = m.hashContext ctx := by
    rw [hashContext_eq, hashContext_eq, window_window h]
    rfl
  have hpeak : m.unpinned.peak (window ctx) = m.peak ctx := by
    rw [TinyTransformer.peak, TinyTransformer.peak, hpin, hhash]
    rfl
  rw [greedyToken_of_not_masked (by omega), greedyToken_of_not_masked (by omega), hpeak]

/-- What the model's greedy choice reads of contexts longer than all pins. -/
def memory (h : m.WellFormed) {L : ℕ} (hL : 8 ≤ L) (hpin : ∀ c ∈ m.pinned, c.length < L) :
    Greedy.Memory (m.toModel h).next (List TokenId) where
  scope ctx := L ≤ ctx.length
  view := window
  choose w := UInt32.ofNat (m.unpinned.greedyToken w)
  move w := window (w ++ [UInt32.ofNat (m.unpinned.greedyToken w)])
  scope_next hctx := by
    rw [List.length_append]
    omega
  next_eq {ctx} hctx := by
    have hlookup : m.pinned.lookup ctx = none :=
      AList.lookup_eq_none.mpr fun hc => (hpin ctx hc).not_ge hctx
    rw [next_toModel, greedyToken_window (hL.trans hctx) hlookup]
  view_next {ctx} hctx := by
    have hlookup : m.pinned.lookup ctx = none :=
      AList.lookup_eq_none.mpr fun hc => (hpin ctx hc).not_ge hctx
    rw [next_toModel, greedyToken_window (hL.trans hctx) hlookup,
      window_append_window (hL.trans hctx)]

theorem greedy_eq_of_window (h : m.WellFormed) {L : ℕ} (hL : 8 ≤ L)
    (hpin : ∀ c ∈ m.pinned, c.length < L) {u v : List TokenId} (hu : L ≤ u.length)
    (hv : L ≤ v.length) (hwindow : window u = window v) (n : ℕ) :
    (m.toModel h).greedy u n = (m.toModel h).greedy v n :=
  (memory h hL hpin).decode_eq hu hv hwindow n

def windows (m : TinyTransformer) : Finset (List TokenId) :=
  (Fintype.piFinset fun _ : Fin 8 => (Finset.range m.vocab).image UInt32.ofNat).image List.ofFn

theorem card_windows_le (m : TinyTransformer) : m.windows.card ≤ m.vocab ^ 8 := by
  refine Finset.card_image_le.trans ?_
  rw [Fintype.card_piFinset_const]
  apply Nat.pow_le_pow_left
  simpa using Finset.card_image_le (s := Finset.range m.vocab) (f := UInt32.ofNat)

theorem mem_windows (hlen : w.length = 8) (hw : ∀ t ∈ w, t.toNat < m.vocab) : w ∈ m.windows := by
  rw [windows, Finset.mem_image]
  refine ⟨fun i => w.get (i.cast hlen.symm), ?_, ?_⟩
  · rw [Fintype.mem_piFinset]
    intro i
    rw [Finset.mem_image]
    exact ⟨_, Finset.mem_range.mpr (hw _ (List.get_mem _ _)), UInt32.ofNat_toNat⟩
  · apply List.ext_getElem
    · rw [List.length_ofFn, hlen]
    · intro i _ _
      rw [List.getElem_ofFn]
      rfl

theorem lt_vocab_of_mem_windows (hw : w ∈ m.windows) :
    w.length = 8 ∧ ∀ t ∈ w, t.toNat < m.vocab := by
  rw [windows, Finset.mem_image] at hw
  obtain ⟨f, hf, rfl⟩ := hw
  refine ⟨List.length_ofFn, ?_⟩
  intro t ht
  obtain ⟨i, rfl⟩ := List.mem_ofFn.mp ht
  obtain ⟨k, hk, hfi⟩ := Finset.mem_image.mp (Fintype.mem_piFinset.mp hf i)
  rw [← hfi, UInt32.toNat_ofNat']
  exact (Nat.mod_le _ _).trans_lt (Finset.mem_range.mp hk)

theorem mem_of_mem_window {t : TokenId} (h : t ∈ window ctx) : t ∈ ctx := List.mem_of_mem_drop h

theorem next_lt (h : m.WellFormed) (ctx : List TokenId) :
    ((m.toModel h).next ctx).toNat < m.vocab := by
  rw [next_toModel, toNat_greedyToken h]
  exact m.greedyToken_lt h ctx

theorem mapsTo_windows (h : m.WellFormed) :
    Set.MapsTo (fun w => window (w ++ [UInt32.ofNat (m.unpinned.greedyToken w)]))
      m.windows m.windows := by
  intro w hw
  obtain ⟨hlen, hvocab⟩ := lt_vocab_of_mem_windows (Finset.mem_coe.mp hw)
  have hun : m.unpinned.WellFormed := ⟨h.two_le, h.vocab_le, h.eos_lt⟩
  apply mem_windows
  · apply length_window
    rw [List.length_append, hlen]
    omega
  · intro t ht
    rcases List.mem_append.mp (mem_of_mem_window ht) with hold | hnew
    · exact hvocab t hold
    · rw [List.mem_singleton.mp hnew, toNat_greedyToken hun]
      exact m.unpinned.greedyToken_lt hun w

theorem window_run_mem (h : m.WellFormed) {k : ℕ} (hk : 8 ≤ k) (ctx : List TokenId) :
    window (Greedy.run (m.toModel h).next k ctx) ∈ m.windows := by
  obtain ⟨toks, hrun, hlen, htoks⟩ := Greedy.run_eq_append (m.toModel h).next k ctx
  rw [hrun, window_append (by omega)]
  apply mem_windows (length_window (by omega))
  intro t ht
  obtain ⟨c, rfl⟩ := htoks t (mem_of_mem_window ht)
  exact next_lt h c

/-- Past its pins the model's greedy decoding depends on the last eight tokens alone. An eos
follows within one token for each window, or never. -/
theorem greedy_remembers_window (m : TinyTransformer) (h : m.WellFormed) (L : ℕ) (hL : 8 ≤ L)
    (hpin : ∀ c ∈ m.pinned, c.length < L) :
    (∀ u v n, L ≤ u.length → L ≤ v.length → window u = window v →
      (m.toModel h).greedy u n = (m.toModel h).greedy v n) ∧
    ∀ prompt n, m.eos ∈ (m.toModel h).greedy prompt n →
      m.eos ∈ (m.toModel h).greedy prompt (L + m.vocab ^ 8) := by
  let M := memory h hL hpin
  constructor
  · intro u v n hu hv hwindow
    exact greedy_eq_of_window h hL hpin hu hv hwindow n
  · intro prompt n heos
    have hscope : M.scope (Greedy.run (m.toModel h).next L prompt) := by
      obtain ⟨toks, hrun, hlen, -⟩ := Greedy.run_eq_append (m.toModel h).next L prompt
      change L ≤ _
      rw [hrun, List.length_append, hlen]
      omega
    have hstop := M.stop_within hscope (mapsTo_windows h) (window_run_mem h hL prompt) heos
    exact Greedy.mem_decode_of_le (Nat.add_le_add_left (card_windows_le m) L) hstop

/-- A pin on six tokens; the prompts agree in their last eight. -/
theorem greedy_remembers_window_past_pin :
    let m := ((draft 64 4).withEos 5).pin [1, 2, 3, 4, 5, 6] 9
    ∃ h : m.WellFormed,
      (∀ u v n, 8 ≤ u.length → 8 ≤ v.length → window u = window v →
        (m.toModel h).greedy u n = (m.toModel h).greedy v n) ∧
      ∀ prompt n, m.eos ∈ (m.toModel h).greedy prompt n →
        m.eos ∈ (m.toModel h).greedy prompt (8 + m.vocab ^ 8) := by
  intro m
  have h : m.WellFormed := ⟨by decide, by decide, by decide⟩
  refine ⟨h, greedy_remembers_window m h 8 le_rfl ?_⟩
  intro c hc
  obtain rfl : c = [1, 2, 3, 4, 5, 6] := by
    have hkey : c ∈ m.pinned.keys := AList.mem_keys.mp hc
    simpa [m, pin, draft, new, withEos] using hkey
  decide

end ForgeInfer.TinyTransformer
