import ForgeInfer.Foundation.Rounding

/-! # Rounding keeps order

Rounding is monotone, so it keeps a number between any two representable ones. A running sum
of numbers of the unit interval therefore never falls, and stops growing at `2 ^ 24`; a
quotient of two counters is zero, or one, only where the exact one is.
-/

namespace Binary32

variable {x y lo hi : ℚ}

theorem roundHalfEven_mono (h : x ≤ y) : roundHalfEven x ≤ roundHalfEven y := by
  rcases (Int.floor_mono h).lt_or_eq with hlt | heq
  · calc roundHalfEven x ≤ ⌈x⌉ := roundHalfEven_le_ceil x
      _ ≤ ⌊x⌋ + 1 := Int.ceil_le_floor_add_one x
      _ ≤ ⌊y⌋ := hlt
      _ ≤ roundHalfEven y := floor_le_roundHalfEven y
  · have hfrac : x - ⌊y⌋ ≤ y - ⌊y⌋ := by linarith
    simp only [roundHalfEven, heq]
    split_ifs <;> first | omega | linarith

theorem nearest_nonneg (h : 0 ≤ x) : 0 ≤ nearest x := by
  have hscaled : ((0 : ℤ) : ℚ) ≤ x / 2 ^ ulpExponent x := by
    rw [Int.cast_zero]
    exact div_nonneg h (two_zpow_pos _).le
  exact mul_nonneg (by exact_mod_cast le_roundHalfEven hscaled) (two_zpow_pos _).le

theorem nearest_nonpos (h : x ≤ 0) : nearest x ≤ 0 := by
  have hscaled : x / 2 ^ ulpExponent x ≤ ((0 : ℤ) : ℚ) := by
    rw [Int.cast_zero]
    exact div_nonpos_of_nonpos_of_nonneg h (two_zpow_pos _).le
  have hround : roundHalfEven (x / 2 ^ ulpExponent x) ≤ 0 :=
    (roundHalfEven_le_ceil _).trans (Int.ceil_le.mpr hscaled)
  exact mul_nonpos_of_nonpos_of_nonneg (by exact_mod_cast hround) (two_zpow_pos _).le

/-- Between two numbers of one step the scaled values are compared; otherwise a power of two
lies between them. -/
theorem nearest_mono (h0 : 0 ≤ x) (h : x ≤ y) : nearest x ≤ nearest y := by
  rcases h0.eq_or_lt with rfl | hx
  · rw [nearest_zero]
    exact nearest_nonneg h
  · have hy : 0 < y := hx.trans_le h
    have hself : (2 : ℚ) ^ Int.log 2 |y| ≤ y := by
      conv_rhs => rw [← abs_of_pos hy]
      exact two_zpow_log_le hy.ne'
    by_cases hu : ulpExponent x = ulpExponent y
    · rw [nearest, nearest, hu]
      refine mul_le_mul_of_nonneg_right ?_ (two_zpow_pos _).le
      exact_mod_cast roundHalfEven_mono (div_le_div_of_nonneg_right h (two_zpow_pos _).le)
    · have hlog : Int.log 2 |x| ≤ Int.log 2 |y| := by
        rw [abs_of_pos hx, abs_of_pos hy]
        exact Int.log_mono_right hx h
      have hgap : Int.log 2 |x| < Int.log 2 |y| ∧ -149 ≤ Int.log 2 |y| := by
        unfold ulpExponent at hu
        omega
      have hbelow : |x| ≤ 2 ^ Int.log 2 |y| := by
        by_contra hlt
        exact absurd (le_log (not_le.mp hlt).le) (not_le.mpr hgap.1)
      calc nearest x ≤ |nearest x| := le_abs_self _
        _ ≤ 2 ^ Int.log 2 |y| := abs_nearest_le hgap.2 hbelow
        _ ≤ nearest y := le_nearest hgap.2 hself

theorem nearest_two_pow_succ : nearest (2 ^ 24 + 1) = 2 ^ 24 := by
  have habs : |(2 ^ 24 + 1 : ℚ)| = 2 ^ 24 + 1 := abs_of_pos (by norm_num)
  have hlow : 24 ≤ Int.log 2 |(2 ^ 24 + 1 : ℚ)| := le_log (by rw [habs]; norm_num)
  have hhigh : Int.log 2 |(2 ^ 24 + 1 : ℚ)| < 25 := log_lt (by norm_num) (by rw [habs]; norm_num)
  have hu : ulpExponent (2 ^ 24 + 1) = 1 := by
    unfold ulpExponent
    omega
  have hfloor : ⌊((2 ^ 24 + 1) / 2 ^ (1 : ℤ) : ℚ)⌋ = 2 ^ 23 := by
    rw [Int.floor_eq_iff]
    norm_num
  rw [nearest, hu, roundHalfEven, hfloor]
  norm_num

namespace F32

section Order

variable {a b c : F32}

@[simp] theorem fin_le_fin {q r : ℚ} {hq : Representable q} {hr : Representable r} :
    fin q hq ≤ fin r hr ↔ q ≤ r := decide_eq_true_iff

theorem le_refl_of_ne_nan (h : a ≠ nan) : a ≤ a := by
  cases a with
  | nan => exact absurd rfl h
  | negInf => rfl
  | fin q hq => exact fin_le_fin.mpr le_rfl
  | posInf => rfl

theorem le_trans (hab : a ≤ b) (hbc : b ≤ c) : a ≤ c := by
  cases a <;> cases b <;> cases c <;> first | rfl | contradiction | skip
  exact fin_le_fin.mpr ((fin_le_fin.mp hab).trans (fin_le_fin.mp hbc))

theorem not_lt_of_le (h : a ≤ b) : ¬b < a := by
  cases a <;> cases b <;> first | exact Bool.false_ne_true | contradiction | skip
  rw [fin_lt_fin, not_lt]
  exact fin_le_fin.mp h

theorem lt_of_le_of_ne (h : a ≤ b) (hne : a ≠ b) : a < b := by
  cases a <;> cases b <;> first | rfl | contradiction | skip
  rw [fin_lt_fin]
  refine (fin_le_fin.mp h).lt_of_ne ?_
  rintro rfl
  exact hne rfl

theorem max_spec (ha : a ≠ nan) (hb : b ≠ nan) :
    (max a b = a ∨ max a b = b) ∧ a ≤ max a b ∧ b ≤ max a b := by
  have hmax : max a b = if a < b then b else a := by
    cases a <;> cases b <;> first | rfl | contradiction
  rw [hmax]
  split
  · next hlt =>
    refine ⟨Or.inr rfl, ?_, le_refl_of_ne_nan hb⟩
    cases a <;> cases b <;> first | rfl | contradiction | skip
    exact fin_le_fin.mpr (fin_lt_fin.mp hlt).le
  · next hlt =>
    refine ⟨Or.inl rfl, le_refl_of_ne_nan ha, ?_⟩
    cases a <;> cases b <;> first | rfl | contradiction | skip
    · exact fin_le_fin.mpr (not_lt.mp (fin_lt_fin.not.mp hlt))

theorem foldl_max_spec {vs : List F32} (ha : a ≠ nan) (hvs : ∀ v ∈ vs, v ≠ nan) :
    (vs.foldl max a = a ∨ vs.foldl max a ∈ vs) ∧ a ≤ vs.foldl max a ∧
      ∀ v ∈ vs, v ≤ vs.foldl max a := by
  induction vs generalizing a with
  | nil => exact ⟨Or.inl rfl, le_refl_of_ne_nan ha, fun v hv => absurd hv List.not_mem_nil⟩
  | cons v vs ih =>
    have hv : v ≠ nan := hvs v List.mem_cons_self
    obtain ⟨hone, hale, hvle⟩ := max_spec ha hv
    have hne : max a v ≠ nan := by
      rcases hone with h | h
      · rwa [h]
      · rwa [h]
    obtain ⟨hmem, hle, hall⟩ := ih hne fun u hu => hvs u (List.mem_cons_of_mem v hu)
    rw [List.foldl_cons]
    refine ⟨?_, le_trans hale hle, ?_⟩
    · rcases hmem with h | h
      · rw [h]
        rcases hone with h | h
        · exact Or.inl h
        · rw [h]
          exact Or.inr List.mem_cons_self
      · exact Or.inr (List.mem_cons_of_mem v h)
    · rintro u hu
      rcases List.mem_cons.mp hu with rfl | hu
      · exact le_trans hvle hle
      · exact hall u hu

end Order

def Within (lo hi : ℚ) (a : F32) : Prop := ∃ q h, a = fin q h ∧ lo ≤ q ∧ q ≤ hi

theorem Within.mono {a : F32} (h : a.Within lo hi) {lo' hi' : ℚ} (hlo : lo' ≤ lo) (hhi : hi ≤ hi') :
    a.Within lo' hi' := by
  obtain ⟨q, hq, rfl, h₁, h₂⟩ := h
  exact ⟨q, hq, rfl, hlo.trans h₁, h₂.trans hhi⟩

theorem within_zero : (0 : F32).Within 0 0 := ⟨0, representable_zero, rfl, le_rfl, le_rfl⟩

theorem within_one : (1 : F32).Within 1 1 := ⟨1, representable_one, rfl, le_rfl, le_rfl⟩

theorem within_of_nearest (h0 : 0 ≤ lo) (hhi : hi < 2 ^ 128) (h : lo ≤ nearest x)
    (h' : nearest x ≤ hi) : (round x).Within lo hi := by
  have hfin : |nearest x| < 2 ^ 128 := by
    rw [abs_of_nonneg (h0.trans h)]
    exact h'.trans_lt hhi
  exact ⟨_, _, round_eq_fin hfin, h, h'⟩

theorem le_nearest_of_representable (hlo : Representable lo) (h0 : 0 ≤ lo) (h : lo ≤ x) :
    lo ≤ nearest x := by
  rw [← nearest_of_representable hlo]
  exact nearest_mono h0 h

theorem nearest_le_of_representable (hhi : Representable hi) (h0 : 0 ≤ x) (h : x ≤ hi) :
    nearest x ≤ hi := by
  rw [← nearest_of_representable hhi]
  exact nearest_mono h0 h

theorem within_round (hlo : Representable lo) (hhi : Representable hi) (h0 : 0 ≤ lo) (h : lo ≤ x)
    (h' : x ≤ hi) : (round x).Within lo hi := by
  obtain ⟨-, -, -, -, -, hlt⟩ := id hhi
  exact within_of_nearest h0 ((le_abs_self _).trans_lt hlt) (le_nearest_of_representable hlo h0 h)
    (nearest_le_of_representable hhi (h0.trans h) h')

theorem Within.add_unit {a b : F32} {s t : ℚ} (ha : a.Within s (2 ^ 24)) (hb : b.Within t 1)
    (hs : 0 ≤ s) (ht : 0 ≤ t) (hlo : Representable lo) (h0 : 0 ≤ lo) (h : lo ≤ s + t) :
    (a + b).Within lo (2 ^ 24) := by
  obtain ⟨q, hq, rfl, hql, hqh⟩ := ha
  obtain ⟨r, hr, rfl, hrl, hrh⟩ := hb
  have hlow : lo ≤ nearest (q + r) := le_nearest_of_representable hlo h0 (by linarith)
  have hsum : nearest (q + r) ≤ 2 ^ 24 := by
    rw [← nearest_two_pow_succ]
    exact nearest_mono (by linarith) (by linarith)
  exact within_of_nearest h0 (by norm_num) hlow hsum

theorem Within.div_unit {a b : F32} (ha : a.Within lo 1) (hb : b.Within 1 hi) (h0 : 0 ≤ lo)
    (hlo : Representable (lo / hi)) : (a / b).Within (lo / hi) 1 := by
  obtain ⟨q, hq, rfl, hql, hqh⟩ := ha
  obtain ⟨r, hr, rfl, hrl, hrh⟩ := hb
  have hpos : 0 < r := zero_lt_one.trans_le hrl
  have hhi : 0 < hi := hpos.trans_le hrh
  rw [fin_div_fin hpos.ne']
  apply within_round hlo representable_one (div_nonneg h0 hhi.le)
  · exact div_le_div₀ (h0.trans hql) hql hpos hrh
  · rw [div_le_one hpos]
    exact hqh.trans hrl

theorem Within.div_le_div {a b d : F32} {u : ℚ} (ha : a.Within 0 lo) (hb : b.Within lo u)
    (hu : u ≤ 1) (hd : d.Within 1 hi) : a / d ≤ b / d := by
  obtain ⟨q, hq, rfl, hql, hqh⟩ := ha
  obtain ⟨s, hs, rfl, hsl, hsh⟩ := hb
  obtain ⟨r, hr, rfl, hrl, -⟩ := hd
  have hpos : 0 < r := zero_lt_one.trans_le hrl
  have hqs : q ≤ s := hqh.trans hsl
  have hfin : ∀ x, 0 ≤ x → x ≤ 1 → |nearest (x / r)| < 2 ^ 128 := by
    intro x hx hx1
    rw [abs_of_nonneg (nearest_nonneg (div_nonneg hx hpos.le))]
    have hle : nearest (x / r) ≤ 1 := nearest_le_of_representable representable_one
      (div_nonneg hx hpos.le) ((div_le_one hpos).mpr (hx1.trans hrl))
    exact hle.trans_lt (by norm_num)
  rw [fin_div_fin hpos.ne', fin_div_fin hpos.ne',
    round_eq_fin (hfin q hql (hqs.trans (hsh.trans hu))),
    round_eq_fin (hfin s (hql.trans hqs) (hsh.trans hu)), fin_le_fin]
  exact nearest_mono (div_nonneg hql hpos.le) (div_le_div_of_nonneg_right hqs hpos.le)

theorem round_natCast_div_nonneg {n j : ℕ} (hn : n < 2 ^ j) (hj : j ≤ 126) :
    ¬round n / round (2 ^ j) < 0 := by
  obtain ⟨h, he⟩ := round_natCast_div hn hj
  rw [he]
  change ¬fin _ h < fin 0 representable_zero
  rw [fin_lt_fin, not_lt]
  exact div_nonneg (nearest_nonneg (Nat.cast_nonneg _)) (by positivity)

theorem representable_natCast {n : ℕ} (h : n ≤ 2 ^ 24) : Representable n := by
  have hr := representable_intCast (n := n) (by rw [Nat.abs_cast]; exact_mod_cast h)
  rwa [Int.cast_natCast] at hr

theorem nearest_natCast {n : ℕ} (h : n ≤ 2 ^ 24) : nearest n = n :=
  nearest_of_representable (representable_natCast h)

theorem one_le_nearest_natCast {n : ℕ} (h : 0 < n) : 1 ≤ nearest (n : ℚ) :=
  le_nearest_of_representable representable_one zero_le_one (by exact_mod_cast h)

theorem nearest_natCast_le {n : ℕ} (h : n < 2 ^ 64) : nearest (n : ℚ) ≤ 2 ^ 64 :=
  nearest_le_of_representable (representable_two_pow (by norm_num)) n.cast_nonneg
    (by exact_mod_cast h.le)

theorem round_natCast {n : ℕ} (h : n < 2 ^ 64) : ∃ hr, round n = fin (nearest n) hr := by
  have hlt : |nearest (n : ℚ)| < 2 ^ 128 := by
    rw [abs_of_nonneg (nearest_nonneg n.cast_nonneg)]
    exact (nearest_natCast_le h).trans_lt (by norm_num)
  exact ⟨_, round_eq_fin hlt⟩

theorem Within.add_natCast {a b : F32} {n : ℕ} (ha : a.Within 0 n) (hb : b.Within 0 1)
    (hn : n < 2 ^ 24) : (a + b).Within 0 (n + 1) := by
  obtain ⟨q, hq, rfl, hq0, hqn⟩ := ha
  obtain ⟨r, hr, rfl, hr0, hr1⟩ := hb
  have htop := representable_natCast (Nat.succ_le_of_lt hn)
  rw [Nat.cast_succ] at htop
  exact within_round representable_zero htop le_rfl (by linarith) (by linarith)

theorem Within.div_natCast {a : F32} {n : ℕ} (ha : a.Within 0 n) (hpos : 0 < n)
    (hn : n ≤ 2 ^ 24) : (a / round n).Within 0 1 := by
  obtain ⟨q, hq, rfl, hq0, hqn⟩ := ha
  have hn0 : (0 : ℚ) < n := by exact_mod_cast hpos
  rw [round_of_representable (representable_natCast hn), fin_div_fin hn0.ne']
  exact within_round representable_zero representable_one le_rfl (div_nonneg hq0 hn0.le)
    ((div_le_one hn0).mpr hqn)

section Ratio

variable {a b : ℕ}

/-- A part of a whole, both of them 64-bit counters, as a quotient of rounded numbers. -/
theorem round_div_natCast (hab : a ≤ b) (hb : 0 < b) (hbig : b < 2 ^ 64) :
    round (a : ℚ) / round (b : ℚ) = round (nearest a / nearest b) := by
  obtain ⟨hra, ha⟩ := round_natCast (hab.trans_lt hbig)
  obtain ⟨hrb, hb'⟩ := round_natCast hbig
  rw [ha, hb', fin_div_fin (zero_lt_one.trans_le (one_le_nearest_natCast hb)).ne']

theorem ratio_within (hab : a ≤ b) (hb : 0 < b) (hbig : b < 2 ^ 64) :
    (round (a : ℚ) / round (b : ℚ)).Within 0 1 := by
  have hpos : 0 < nearest (b : ℚ) := zero_lt_one.trans_le (one_le_nearest_natCast hb)
  rw [round_div_natCast hab hb hbig]
  apply within_round representable_zero representable_one le_rfl
  · exact div_nonneg (nearest_nonneg a.cast_nonneg) hpos.le
  · rw [div_le_one hpos]
    exact nearest_mono a.cast_nonneg (by exact_mod_cast hab)

theorem ratio_within_of_pos (ha : 0 < a) (hab : a ≤ b) (hbig : b < 2 ^ 64) :
    (round (a : ℚ) / round (b : ℚ)).Within (1 / 2 ^ 64) 1 := by
  have hb : 0 < b := ha.trans_le hab
  have hpos : 0 < nearest (b : ℚ) := zero_lt_one.trans_le (one_le_nearest_natCast hb)
  have hlow : Representable (1 / 2 ^ 64) :=
    ⟨1, -64, by norm_num, by norm_num, by norm_num, by rw [abs_of_pos] <;> norm_num⟩
  rw [round_div_natCast hab hb hbig]
  apply within_round hlow representable_one (by norm_num)
  · rw [div_le_div_iff₀ (by norm_num) hpos]
    have hone := one_le_nearest_natCast ha
    have hle := nearest_natCast_le hbig
    linarith
  · rw [div_le_one hpos]
    exact nearest_mono a.cast_nonneg (by exact_mod_cast hab)

theorem ratio_eq_zero_iff (hab : a ≤ b) (hb : 0 < b) (hbig : b < 2 ^ 64) :
    round (a : ℚ) / round (b : ℚ) = 0 ↔ a = 0 := by
  constructor
  · intro h
    by_contra hne
    obtain ⟨q, hq, he, hlow, -⟩ := ratio_within_of_pos (Nat.pos_of_ne_zero hne) hab hbig
    rw [h] at he
    change fin 0 representable_zero = fin q hq at he
    obtain rfl : (0 : ℚ) = q := by injection he
    exact absurd hlow (by norm_num)
  · rintro rfl
    rw [round_div_natCast hab hb hbig, Nat.cast_zero, nearest_zero, zero_div,
      round_of_representable representable_zero]
    rfl

theorem ratio_eq_one (hb : 0 < b) (hbig : b < 2 ^ 64) :
    round (b : ℚ) / round (b : ℚ) = 1 := by
  rw [round_div_natCast le_rfl hb hbig,
    div_self (zero_lt_one.trans_le (one_le_nearest_natCast hb)).ne',
    round_of_representable representable_one]
  rfl

theorem ratio_lt_one (hab : a < b) (hb : b ≤ 2 ^ 24) : round (a : ℚ) / round (b : ℚ) < 1 := by
  have hpos : (0 : ℚ) < b := by exact_mod_cast hab.pos
  have hle : (a : ℚ) + 1 ≤ b := by exact_mod_cast hab
  have hcap : (b : ℚ) ≤ 2 ^ 24 := by exact_mod_cast hb
  have hquot : (a : ℚ) / b < 2 ^ (0 : ℤ) - 2 ^ ((0 : ℤ) - 25) := by
    rw [div_lt_iff₀ hpos]
    norm_num
    linarith
  have hnear := (nearest_lt_iff (by norm_num) (div_nonneg a.cast_nonneg hpos.le)
    (hquot.trans (by norm_num))).mpr hquot
  obtain ⟨q, hq, he, h0, h1⟩ := ratio_within hab.le hab.pos (by omega)
  rw [round_div_natCast hab.le hab.pos (by omega), nearest_natCast (by omega),
    nearest_natCast hb] at he ⊢
  have hfin : |nearest ((a : ℚ) / b)| < 2 ^ 128 := by
    rw [abs_of_nonneg (nearest_nonneg (div_nonneg a.cast_nonneg hpos.le))]
    exact hnear.trans (by norm_num)
  rw [round_eq_fin hfin]
  change fin _ _ < fin 1 representable_one
  rw [fin_lt_fin]
  simpa using hnear

/-- What a single precision number tells of a part `a` of `b`. -/
structure IsFraction (a b : ℕ) (r : F32) : Prop where
  within : r.Within 0 1
  zero_iff : r = 0 ↔ a = 0
  one_of_eq : a = b → 0 < b → r = 1
  lt_one : a < b → b ≤ 2 ^ 24 → r < 1

/-- A quotient of counters, with nothing of nothing read as zero. -/
theorem isFraction (hab : a ≤ b) (hbig : b < 2 ^ 64) :
    IsFraction a b (if b = 0 then 0 else round (a : ℚ) / round (b : ℚ)) := by
  rcases Nat.eq_zero_or_pos b with rfl | hb
  · obtain rfl := Nat.le_zero.mp hab
    rw [if_pos rfl]
    exact ⟨within_zero.mono le_rfl zero_le_one, by simp, fun _ h => absurd h (lt_irrefl 0),
      fun h => absurd h (lt_irrefl 0)⟩
  · rw [if_neg hb.ne']
    constructor
    · exact ratio_within hab hb hbig
    · exact ratio_eq_zero_iff hab hb hbig
    · rintro rfl -
      exact ratio_eq_one hb hbig
    · exact ratio_lt_one

end Ratio

end F32

end Binary32
