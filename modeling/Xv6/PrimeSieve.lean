import Mathlib.Data.Nat.Prime.Basic

/-!
# Sieving in stages

Each stage takes the first number that reaches it and passes on those of the others that it does
not divide. The numbers from 2 to `N` go in; the first numbers of the stages are the primes.
-/

namespace Xv6.PrimeSieve

variable {N j : ℕ}

/-- What a stage passes on. -/
def sift : List ℕ → List ℕ
  | [] => []
  | p :: l => l.filter (fun n => n % p ≠ 0)

/-- What reaches a stage. -/
def stream (N : ℕ) : ℕ → List ℕ
  | 0 => List.range' 2 (N - 1)
  | k + 1 => sift (stream N k)

/-- The first numbers of the first stages. -/
def heads (N j : ℕ) : List ℕ := (List.range j).map (fun k => (stream N k).headD 0)

def primes (N : ℕ) : List ℕ := (List.range (N + 1)).filter Nat.Prime

theorem heads_succ (N j : ℕ) : heads N (j + 1) = heads N j ++ [(stream N j).headD 0] := by
  rw [heads, List.range_succ, List.map_append, heads]
  rfl

theorem prefix_sift {p : ℕ} {cs l : List ℕ} (h : p :: cs <+: l) : cs.filter (fun n => n % p ≠ 0) <+: sift l := by
  obtain ⟨rest, rfl⟩ := h
  exact (List.prefix_append cs rest).filter _

/-- The numbers that no earlier first number divides. -/
structure Sifted (N : ℕ) (qs l : List ℕ) : Prop where
  sorted : l.Pairwise (· < ·)
  mem : ∀ n, n ∈ l ↔ 2 ≤ n ∧ n ≤ N ∧ ∀ q ∈ qs, n % q ≠ 0

theorem sifted_zero (N : ℕ) : Sifted N [] (stream N 0) where
  sorted := List.pairwise_lt_range'
  mem := by
    intro n
    rw [stream, List.mem_range'_1]
    constructor
    · exact fun h => ⟨h.1, by omega, fun q hq => absurd hq List.not_mem_nil⟩
    · rintro ⟨h, h', -⟩
      omega

theorem Sifted.sift {qs l : List ℕ} {p : ℕ} (h : Sifted N qs (p :: l)) :
    Sifted N (qs ++ [p]) (PrimeSieve.sift (p :: l)) where
  sorted := (List.pairwise_cons.1 h.sorted).2.filter _
  mem := by
    intro n
    have hp : n = p → n % p = 0 := fun heq => heq ▸ Nat.mod_self n
    rw [PrimeSieve.sift, List.mem_filter, decide_eq_true_iff]
    constructor
    · rintro ⟨hn, hmod⟩
      obtain ⟨h2, hN, hqs⟩ := (h.mem n).1 (List.mem_cons_of_mem p hn)
      refine ⟨h2, hN, fun q hq => ?_⟩
      rcases List.mem_append.1 hq with hq | hq
      · exact hqs q hq
      · rw [List.mem_singleton.1 hq]
        exact hmod
    · rintro ⟨h2, hN, hqs⟩
      have hmod := hqs p (List.mem_append_right qs (List.mem_singleton_self p))
      have hn : n ∈ p :: l := (h.mem n).2 ⟨h2, hN, fun q hq => hqs q (List.mem_append_left [p] hq)⟩
      exact ⟨(List.mem_cons.1 hn).resolve_left (fun heq => hmod (hp heq)), hmod⟩

/-- The first number is prime: a smaller divisor would have come before it. -/
theorem Sifted.prime {qs l : List ℕ} {p : ℕ} (h : Sifted N qs (p :: l)) : p.Prime := by
  obtain ⟨h2, hN, hqs⟩ := (h.mem p).1 List.mem_cons_self
  have hfac : p.minFac ∈ p :: l := by
    refine (h.mem _).2 ⟨(Nat.minFac_prime (by omega)).two_le, (Nat.minFac_le (by omega)).trans hN, ?_⟩
    intro q hq hmod
    exact hqs q hq (Nat.mod_eq_zero_of_dvd ((Nat.dvd_of_mod_eq_zero hmod).trans p.minFac_dvd))
  rcases List.mem_cons.1 hfac with heq | hmem
  · exact heq ▸ Nat.minFac_prime (by omega)
  · have hlt := (List.pairwise_cons.1 h.sorted).1 _ hmem
    have hle := Nat.minFac_le (n := p) (by omega)
    omega

theorem Sifted.filter_prime {qs l : List ℕ} {p : ℕ} (h : Sifted N qs (p :: l)) :
    (p :: l).filter Nat.Prime = p :: (PrimeSieve.sift (p :: l)).filter Nat.Prime := by
  have hprime := h.prime
  rw [List.filter_cons, if_pos (decide_eq_true hprime), PrimeSieve.sift, List.filter_filter]
  refine congrArg _ (List.filter_congr (fun n hn => ?_))
  have hlt := (List.pairwise_cons.1 h.sorted).1 n hn
  rw [← Bool.decide_and, decide_eq_decide]
  refine ⟨fun hn => ⟨hn, fun hmod => ?_⟩, fun hn => hn.1⟩
  rcases (Nat.dvd_prime hn).1 (Nat.dvd_of_mod_eq_zero hmod) with hone | heq
  · exact hprime.one_lt.ne' hone
  · omega

theorem sifted_stream (h : ∀ k < j, stream N k ≠ []) : Sifted N (heads N j) (stream N j) ∧
    heads N j ++ (stream N j).filter Nat.Prime = primes N := by
  induction j with
  | zero =>
    refine ⟨sifted_zero N, ?_⟩
    cases N with
    | zero => decide
    | succ N =>
      have hrange : List.range (N + 1 + 1) = 0 :: 1 :: List.range' 2 N := by
        rw [List.range_eq_range', List.range'_succ, List.range'_succ]
      rw [primes, hrange, List.filter_cons, if_neg (by decide), List.filter_cons, if_neg (by decide)]
      rfl
  | succ j ih =>
    obtain ⟨hsifted, hprimes⟩ := ih (fun k hk => h k (Nat.lt_succ_of_lt hk))
    obtain ⟨p, l, hcons⟩ := List.exists_cons_of_ne_nil (h j (Nat.lt_succ_self j))
    rw [heads_succ, stream]
    rw [hcons] at hsifted hprimes ⊢
    refine ⟨hsifted.sift, ?_⟩
    rw [← hprimes, hsifted.filter_prime, List.append_assoc]
    rfl

/-- The first numbers of the stages are the first primes. -/
theorem heads_prefix (h : ∀ k < j, stream N k ≠ []) : heads N j <+: primes N :=
  ⟨_, (sifted_stream h).2⟩

theorem heads_eq_primes (h : ∀ k < j, stream N k ≠ []) (hj : stream N j = []) : heads N j = primes N := by
  have hprimes := (sifted_stream h).2
  rw [hj, List.filter_nil, List.append_nil] at hprimes
  exact hprimes

end Xv6.PrimeSieve
