import ForgeInfer.Cache.Counter

/-! # Calls on different sequences

Sequences meet in the cache only where an append is refused for want of blocks. As long as
that does not happen, a sequence gets the answers it would get alone, and what can be observed
in the end does not depend on how the calls of different sequences were interleaved.
-/

namespace ForgeInfer

namespace CacheCall

def seq : CacheCall → SeqId
  | .admitSeq seq | .append seq _ | .free seq => seq

/-- What a call does to the tokens of its sequence when there are blocks enough. -/
def alone (n : Option ℕ) : CacheCall → Option ℕ × Option (Except CacheError Unit)
  | .admitSeq _ => (some (n.getD 0), none)
  | .append seq count =>
    match n with
    | none => (none, some (.error (.unknownSequence seq)))
    | some n => (some (n + count), some (.ok ()))
  | .free _ => (none, none)

/-- The answer of an append that found too few free blocks. -/
def Refused : Option (Except CacheError Unit) → Prop
  | some (.error (.outOfBlocks _ _)) => True
  | _ => False

instance : DecidablePred Refused := fun a => by
  unfold Refused
  split <;> infer_instance

end CacheCall

namespace Counter

variable {m m' : Counter} {k : CacheCall}

/-- A call that is not refused does to its sequence what it would do to it alone. -/
theorem lookup_call (h : ¬CacheCall.Refused (m.call k).2) :
    ((m.call k).1.counts.lookup k.seq, (m.call k).2) = k.alone (m.counts.lookup k.seq) := by
  cases k with
  | admitSeq seq =>
    by_cases hm : seq ∈ m.counts
    · obtain ⟨n, hn⟩ := Option.isSome_iff_exists.mp (AList.lookup_isSome.mpr hm)
      simp [call, admitSeq, CacheCall.alone, CacheCall.seq, hm, hn]
    · simp [call, admitSeq, CacheCall.alone, CacheCall.seq, hm, AList.lookup_eq_none.mpr hm]
  | append seq count =>
    simp only [call, append, CacheCall.seq, CacheCall.alone] at h ⊢
    cases hn : m.counts.lookup seq with
    | none => simp [hn]
    | some n =>
      rw [hn] at h
      by_cases hroom : m.unoccupied < m.blocksNeededFor seq count
      · exact absurd (by simp [hroom, CacheCall.Refused]) h
      · simp [hroom]
  | free seq => simp [call, free, CacheCall.alone, CacheCall.seq]

theorem lookup_call_ne {id : SeqId} (m : Counter) (h : k.seq ≠ id) :
    (m.call k).1.counts.lookup id = m.counts.lookup id := by
  cases k with
  | admitSeq seq =>
    simp only [call, admitSeq]
    split
    · rfl
    · exact AList.lookup_insert_ne (Ne.symm h)
  | append seq count =>
    simp only [call, append]
    split
    · rfl
    · split
      · rfl
      · exact AList.lookup_insert_ne (Ne.symm h)
  | free seq => exact AList.lookup_erase_ne (Ne.symm h)

theorem exec_alone (m : Counter) (ks : List CacheCall)
    (h : ∀ a ∈ (Machine.exec call m ks).2, ¬CacheCall.Refused a) (id : SeqId) :
    ((Machine.exec call m ks).1.counts.lookup id,
        Machine.answersTo CacheCall.seq id ks (Machine.exec call m ks).2) =
      Machine.exec CacheCall.alone (m.counts.lookup id) (ks.filter fun k => k.seq = id) := by
  let tokens (id : SeqId) (m : Counter) : Option ℕ := m.counts.lookup id
  have hpart : ∀ (m : Counter) (k : CacheCall), ¬CacheCall.Refused (m.call k).2 →
      (tokens k.seq (m.call k).1, (m.call k).2) = k.alone (tokens k.seq m) := fun m k hgood =>
    lookup_call hgood
  have hframe : ∀ (m : Counter) (k : CacheCall) (id : SeqId), ¬CacheCall.Refused (m.call k).2 →
      k.seq ≠ id → tokens id (m.call k).1 = tokens id m := fun m k id _ hne =>
    m.lookup_call_ne hne
  exact Machine.exec_component hpart hframe m ks h id

theorem numBlocks_call (m : Counter) (k : CacheCall) : (m.call k).1.numBlocks = m.numBlocks := by
  cases k with
  | admitSeq seq => simp only [call, admitSeq]; split <;> rfl
  | append seq count => simp only [call, append]; split <;> [skip; split] <;> rfl
  | free seq => rfl

theorem numBlocks_exec (m : Counter) (ks : List CacheCall) :
    (Machine.exec call m ks).1.numBlocks = m.numBlocks := by
  induction ks generalizing m with
  | nil => rfl
  | cons k ks ih => simp only [Machine.exec, ih, numBlocks_call]

end Counter

structure Counter.Same (m m' : Counter) : Prop where
  blockSize_eq : m.blockSize = m'.blockSize
  numBlocks_eq : m.numBlocks = m'.numBlocks
  lookup_eq : ∀ id, m.counts.lookup id = m'.counts.lookup id

namespace Counter.Same

variable {m m' : Counter}

theorem entries_perm (h : m.Same m') : m.counts.entries.Perm m'.counts.entries := by
  refine List.lookup_ext m.counts.nodupKeys m'.counts.nodupKeys fun id n => ?_
  rw [← AList.lookup, ← AList.lookup, h.lookup_eq]

theorem occupied_eq (h : m.Same m') : m.occupied = m'.occupied := by
  have hp := (h.entries_perm.map fun e => m.blocks e.2).sum_eq
  rw [occupied, occupied, hp]
  simp only [blocks, h.blockSize_eq]

theorem waste_eq (h : m.Same m') : m.waste = m'.waste := by
  have hp := (h.entries_perm.map fun e => m.blocks e.2 * m.blockSize - e.2).sum_eq
  rw [waste, waste, hp]
  simp only [blocks, h.blockSize_eq]

theorem seqLen_eq (h : m.Same m') (id : SeqId) : m.seqLen id = m'.seqLen id := by
  rw [seqLen, seqLen, h.lookup_eq]

theorem blocksNeededFor_eq (h : m.Same m') (id : SeqId) (count : ℕ) :
    m.blocksNeededFor id count = m'.blocksNeededFor id count := by
  simp only [blocksNeededFor, blocks, h.seqLen_eq, h.blockSize_eq]

theorem contains_eq (h : m.Same m') (id : SeqId) : m.contains id = m'.contains id := by
  have hm : id ∈ m.counts ↔ id ∈ m'.counts := by
    rw [← AList.lookup_isSome, ← AList.lookup_isSome, h.lookup_eq]
  simp only [contains, hm]

end Counter.Same

namespace PagedKVCache

/-- Two caches that show the same to their client, their high-water marks apart. -/
structure SameView (c c' : PagedKVCache) : Prop where
  contains : ∀ seq, c.contains seq = c'.contains seq
  seqLen : ∀ seq, c.seqLen seq = c'.seqLen seq
  freeBlocks : c.freeBlocks = c'.freeBlocks
  usedBlocks : c.usedBlocks = c'.usedBlocks
  internalFragmentation : c.internalFragmentation = c'.internalFragmentation
  blocksNeededFor : ∀ seq count, c.blocksNeededFor seq count = c'.blocksNeededFor seq count

theorem Agrees.sameView {c c' : PagedKVCache} {m m' : Counter} (h : c.Agrees m) (h' : c'.Agrees m')
    (hm : m.Same m') : c.SameView c' where
  contains seq := by rw [h.contains, h'.contains, hm.contains_eq]
  seqLen seq := by rw [h.seqLen, h'.seqLen, hm.seqLen_eq]
  freeBlocks := by
    rw [h.freeBlocks, h'.freeBlocks, Counter.unoccupied, Counter.unoccupied, hm.occupied_eq,
      hm.numBlocks_eq]
  usedBlocks := by rw [h.usedBlocks, h'.usedBlocks, hm.occupied_eq]
  internalFragmentation := by
    rw [h.internalFragmentation, h'.internalFragmentation, hm.waste_eq]
  blocksNeededFor seq count := by
    rw [h.blocksNeededFor, h'.blocksNeededFor, hm.blocksNeededFor_eq]

end PagedKVCache

open PagedKVCache in
/-- Two scripts with the same calls on every sequence, interleaved in any way, complete. If
neither is refused an append for want of blocks, every sequence gets the same answers in both
and the two caches show the same to their client. -/
theorem interleavings_agree (numBlocks blockSize : ℕ) (hb : 0 < blockSize)
    (calls calls' : List CacheCall)
    (hsame : ∀ seq, calls.filter (fun k => k.seq = seq) = calls'.filter fun k => k.seq = seq) :
    ∃ c answers c' answers',
      Machine.run call (new numBlocks blockSize hb) calls = some (c, answers) ∧
      Machine.run call (new numBlocks blockSize hb) calls' = some (c', answers') ∧
      ((∀ a ∈ answers, ¬CacheCall.Refused a) → (∀ a ∈ answers', ¬CacheCall.Refused a) →
        c.SameView c' ∧
        ∀ seq, Machine.answersTo CacheCall.seq seq calls answers =
          Machine.answersTo CacheCall.seq seq calls' answers') := by
  obtain ⟨c, hr, hv, hc, -⟩ := run_refines numBlocks blockSize hb calls
  obtain ⟨c', hr', hv', hc', -⟩ := run_refines numBlocks blockSize hb calls'
  refine ⟨c, _, c', _, hr, hr', fun hroom hroom' => ?_⟩
  set m := Counter.new numBlocks blockSize
  have halone := m.exec_alone calls hroom
  have halone' := m.exec_alone calls' hroom'
  have heq : ∀ seq, _ = _ := fun seq =>
    (halone seq).trans ((congrArg _ (hsame seq)).trans (halone' seq).symm)
  constructor
  · have hview :
        (Machine.exec Counter.call m calls).1.Same (Machine.exec Counter.call m calls').1 := by
      constructor
      · rw [Counter.blockSize_exec, Counter.blockSize_exec]
      · rw [Counter.numBlocks_exec, Counter.numBlocks_exec]
      · exact fun seq => congrArg Prod.fst (heq seq)
    exact Agrees.sameView (hc ▸ hv.agrees) (hc' ▸ hv'.agrees) hview
  · exact fun seq => congrArg Prod.snd (heq seq)

open PagedKVCache in
theorem interleavings_agree_in_turns :
    let calls : List CacheCall :=
      [.admitSeq 1, .append 1 3, .free 1, .append 1 1, .admitSeq 2, .append 2 5, .append 2 1]
    let calls' : List CacheCall :=
      [.admitSeq 2, .admitSeq 1, .append 2 5, .append 1 3, .append 2 1, .free 1, .append 1 1]
    ∃ c answers c' answers',
      Machine.run call (new 5 2 (by decide)) calls = some (c, answers) ∧
      Machine.run call (new 5 2 (by decide)) calls' = some (c', answers') ∧ c.SameView c' ∧
      ∀ seq, Machine.answersTo CacheCall.seq seq calls answers =
        Machine.answersTo CacheCall.seq seq calls' answers' := by
  intro calls calls'
  have hsame : ∀ seq, calls.filter (fun k => k.seq = seq) = calls'.filter fun k => k.seq = seq := by
    intro seq
    by_cases h₁ : 1 = seq
    · subst h₁; rfl
    · by_cases h₂ : 2 = seq
      · subst h₂; rfl
      · simp [calls, calls', CacheCall.seq, h₁, h₂]
  obtain ⟨c, answers, c', answers', hr, hr', h⟩ := interleavings_agree 5 2 (by decide) _ _ hsame
  have hroom : (Machine.run call (new 5 2 (by decide)) calls).map Prod.snd = some
    [none, some (.ok ()), none, some (.error (.unknownSequence 1)), none, some (.ok ()),
      some (.ok ())] := rfl
  have hroom' : (Machine.run call (new 5 2 (by decide)) calls').map Prod.snd = some
    [none, none, some (.ok ()), some (.ok ()), some (.ok ()), none,
      some (.error (.unknownSequence 1))] := rfl
  rw [hr, Option.map_some, Option.some.injEq] at hroom
  rw [hr', Option.map_some, Option.some.injEq] at hroom'
  obtain rfl : answers = _ := hroom
  obtain rfl : answers' = _ := hroom'
  obtain ⟨hview, hanswers⟩ := h (by decide) (by decide)
  exact ⟨c, _, c', _, hr, hr', hview, hanswers⟩

end ForgeInfer
