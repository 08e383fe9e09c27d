import AccessLine.Proofs.Text.Split
import AccessLine.Text.Base64

/-!
# Reading Base64

A text is read if and only if it is well formed, as the bytes that its bits make. Its symbols and
padding signs are printable ASCII characters.
-/
namespace AccessLine.Text.Base64

theorem toNat_of_sextet? {c : Char} {n : Nat} (h : sextet? c = some n) :
    n < 64 ∧ 0x2B ≤ c.toNat ∧ c.toNat < 0x7B := by
  have hrange {low high : Char} {k : Nat} (hc : low ≤ c ∧ c ≤ high)
      (hn : c.toNat - low.toNat + k = n) (hk : high.toNat - low.toNat + k < 64)
      (hl : 0x2B ≤ low.toNat) (hh : high.toNat < 0x7B) :
      n < 64 ∧ 0x2B ≤ c.toNat ∧ c.toNat < 0x7B := by
    have hlow : low.toNat ≤ c.toNat := hc.1
    have hhigh : c.toNat ≤ high.toNat := hc.2
    omega
  have hsign {d : Char} {k : Nat} (hc : c = d) (hn : k = n) (hk : k < 64) (hl : 0x2B ≤ d.toNat)
      (hh : d.toNat < 0x7B) : n < 64 ∧ 0x2B ≤ c.toNat ∧ c.toNat < 0x7B := by
    subst hc hn
    exact ⟨hk, hl, hh⟩
  unfold sextet? at h
  split at h
  · exact hrange (k := 0) ‹_› (Option.some.inj h) (by decide) (by decide) (by decide)
  · split at h
    · exact hrange ‹_› (Option.some.inj h) (by decide) (by decide) (by decide)
    · split at h
      · exact hrange ‹_› (Option.some.inj h) (by decide) (by decide) (by decide)
      · split at h
        · exact hsign ‹_› (Option.some.inj h) (by decide) (by decide) (by decide)
        · split at h
          · exact hsign ‹_› (Option.some.inj h) (by decide) (by decide) (by decide)
          · cases h

/-! ### Bytes out of the bits of their symbols -/

/-- Two bits are a digit to the base of four. -/
theorem foldl_highPair (acc n : Nat) :
    [n.testBit 5, n.testBit 4].foldl (fun n b => 2 * n + b.toNat) acc = acc * 4 + n / 16 % 4 := by
  simp only [List.foldl_cons, List.foldl_nil, Nat.toNat_testBit, Nat.reducePow]
  omega

theorem foldl_middlePair (acc n : Nat) :
    [n.testBit 3, n.testBit 2].foldl (fun n b => 2 * n + b.toNat) acc = acc * 4 + n / 4 % 4 := by
  simp only [List.foldl_cons, List.foldl_nil, Nat.toNat_testBit, Nat.reducePow]
  omega

theorem foldl_lowPair (acc n : Nat) :
    [n.testBit 1, n.testBit 0].foldl (fun n b => 2 * n + b.toNat) acc = acc * 4 + n % 4 := by
  simp only [List.foldl_cons, List.foldl_nil, Nat.toNat_testBit, Nat.reducePow]
  omega

section Bits
variable {a b : Nat}

theorem ofBits_first (ha : a < 64) (hb : b < 64) :
    UInt8.ofNat (ofBits ([a.testBit 5, a.testBit 4] ++ [a.testBit 3, a.testBit 2] ++
      [a.testBit 1, a.testBit 0] ++ [b.testBit 5, b.testBit 4])) = firstByte a b := by
  simp only [ofBits, firstByte, List.foldl_append, foldl_highPair, foldl_middlePair, foldl_lowPair]
  congr 1
  omega

theorem ofBits_second (hb : b < 64) :
    UInt8.ofNat (ofBits ([a.testBit 3, a.testBit 2] ++ [a.testBit 1, a.testBit 0] ++
      [b.testBit 5, b.testBit 4] ++ [b.testBit 3, b.testBit 2])) = secondByte a b := by
  simp only [ofBits, secondByte, List.foldl_append, foldl_highPair, foldl_middlePair,
    foldl_lowPair]
  congr 1
  omega

theorem ofBits_third (hb : b < 64) :
    UInt8.ofNat (ofBits ([a.testBit 1, a.testBit 0] ++ [b.testBit 5, b.testBit 4] ++
      [b.testBit 3, b.testBit 2] ++ [b.testBit 1, b.testBit 0])) = thirdByte a b := by
  simp only [ofBits, thirdByte, List.foldl_append, foldl_highPair, foldl_middlePair, foldl_lowPair]
  congr 1
  omega

end Bits

theorem octets_two {a b : Nat} (ha : a < 64) (hb : b < 64) :
    octets ([a, b].flatMap sextetBits) = [firstByte a b] := by
  rw [← ofBits_first ha hb]
  rfl

theorem octets_three {a b c : Nat} (ha : a < 64) (hb : b < 64) (hc : c < 64) :
    octets ([a, b, c].flatMap sextetBits) = [firstByte a b, secondByte b c] := by
  rw [← ofBits_first ha hb, ← ofBits_second hc]
  rfl

theorem octets_four {a b c d : Nat} (ha : a < 64) (hb : b < 64) (hc : c < 64) (hd : d < 64)
    (rest : List Nat) :
    octets ((a :: b :: c :: d :: rest).flatMap sextetBits) =
      firstByte a b :: secondByte b c :: thirdByte c d :: octets (rest.flatMap sextetBits) := by
  rw [← ofBits_first ha hb, ← ofBits_second hc, ← ofBits_third hd]
  rfl

/-- Group by group, the bytes that numbers stand for are those that their bits make. -/
theorem join?_of_limit {sextets : List Nat} {padding limit : Nat} (hs : ∀ n ∈ sextets, n < 64)
    (hg : paddingLimit? sextets.length = some limit) (hp : padding ≤ limit) :
    join? padding sextets = some (octets (sextets.flatMap sextetBits)) := by
  fun_induction join? padding sextets with
  | case1 => rfl
  | case2 h =>
      obtain rfl : 0 = limit := Option.some.inj hg
      exact absurd (Nat.le_zero.mp hp) h
  | case3 a => cases hg
  | case4 a b h =>
      simp only [List.forall_mem_cons] at hs
      rw [octets_two hs.1 hs.2.1]
  | case5 a b h =>
      obtain rfl : 2 = limit := Option.some.inj hg
      exact absurd hp h
  | case6 a b c h =>
      simp only [List.forall_mem_cons] at hs
      rw [octets_three hs.1 hs.2.1 hs.2.2.1]
  | case7 a b c h =>
      obtain rfl : 1 = limit := Option.some.inj hg
      exact absurd hp h
  | case8 a b c d rest ih =>
      simp only [List.forall_mem_cons] at hs
      obtain ⟨ha, hb, hc, hd, hrest⟩ := hs
      have hlength : paddingLimit? rest.length = some limit := by
        simpa only [paddingLimit?, List.length_cons, Nat.add_assoc, Nat.reduceAdd,
          Nat.add_mod_right] using hg
      rw [ih hrest hlength, octets_four ha hb hc hd, Option.map_some]

section Known
variable {cs : List Char} {sextets : List Nat} (h : cs.map sextet? = sextets.map some)
include h

theorem exists_of_mem_known {c : Char} (hc : c ∈ cs) : ∃ n, sextet? c = some n := by
  have hmem : sextet? c ∈ sextets.map some := h ▸ List.mem_map_of_mem hc
  obtain ⟨n, -, hn⟩ := List.mem_map.mp hmem
  exact ⟨n, hn.symm⟩

theorem lt_of_known {n : Nat} (hn : n ∈ sextets) : n < 64 := by
  have hmem : some n ∈ cs.map sextet? := h ▸ List.mem_map_of_mem hn
  obtain ⟨c, -, hc⟩ := List.mem_map.mp hmem
  exact (toNat_of_sextet? hc).1

end Known

theorem ne_padding_of_sextet? {c : Char} {n : Nat} (h : sextet? c = some n) :
    (c != '=') = true := by
  rw [bne_iff_ne]
  rintro rfl
  cases h

/-- A well-formed text is read. -/
theorem decode?_of_writes {cs : List Char} {bytes : List UInt8} (h : Writes cs bytes) :
    decode? cs = some bytes := by
  obtain ⟨known, group, fits⟩ := h
  rename_i symbols sextets padding limit
  have hsymbols : ∀ c ∈ symbols, (c != '=') = true := fun c hc => by
    obtain ⟨n, hn⟩ := exists_of_mem_known known hc
    exact ne_padding_of_sextet? hn
  have hlength : symbols.length = sextets.length := by simpa using congrArg List.length known
  have htake : (symbols ++ List.replicate padding '=').takeWhile (· != '=') = symbols := by
    rw [List.takeWhile_append_of_pos hsymbols]
    simp
  have hdrop : (symbols ++ List.replicate padding '=').dropWhile (· != '=') =
      List.replicate padding '=' := by
    rw [List.dropWhile_append_of_pos hsymbols]
    simp
  simp only [decode?, htake, hdrop, mapM_eq_some_iff.mpr known, List.length_replicate,
    Option.bind_some]
  rw [if_pos (by simp), join?_of_limit (fun n => lt_of_known known) (hlength ▸ group) fits]

/-- What is read group by group has a whole last group, but for its padding. -/
theorem limit_of_join? {sextets : List Nat} {padding : Nat} {bytes : List UInt8}
    (h : join? padding sextets = some bytes) :
    ∃ limit, paddingLimit? sextets.length = some limit ∧ padding ≤ limit := by
  fun_induction join? padding sextets generalizing bytes with
  | case1 h0 => exact ⟨0, rfl, Nat.le_zero.mpr h0⟩
  | case4 a b hp => exact ⟨2, rfl, hp⟩
  | case6 a b c hp => exact ⟨1, rfl, hp⟩
  | case8 a b c d rest ih =>
      obtain ⟨_, hb, -⟩ := Option.map_eq_some_iff.mp h
      obtain ⟨limit, hl, hp⟩ := ih hb
      refine ⟨limit, ?_, hp⟩
      simpa only [paddingLimit?, List.length_cons, Nat.add_assoc, Nat.reduceAdd,
        Nat.add_mod_right] using hl
  | _ => cases h

/-- A text is read as bytes exactly if it stands for them. -/
theorem decode?_eq_some_iff {cs : List Char} {bytes : List UInt8} :
    decode? cs = some bytes ↔ Writes cs bytes := by
  constructor
  · intro h
    unfold decode? at h
    dsimp only at h
    split at h
    · rename_i hall
      obtain ⟨sextets, hs, hj⟩ := Option.bind_eq_some_iff.mp h
      have known := mapM_eq_some_iff.mp hs
      obtain ⟨limit, hlimit, hfits⟩ := limit_of_join? hj
      have hlength : (cs.takeWhile (· != '=')).length = sextets.length := by
        simpa using congrArg List.length known
      have hpadding : cs.dropWhile (· != '=') =
          List.replicate (cs.dropWhile (· != '=')).length '=' := by
        rw [List.eq_replicate_iff]
        exact ⟨rfl, fun c hc => by simpa using List.all_eq_true.mp hall c hc⟩
      have hwrites := Writes.intro known (hlength ▸ hlimit) hfits
      rw [← hpadding, List.takeWhile_append_dropWhile] at hwrites
      rw [join?_of_limit (fun n => lt_of_known known) hlimit hfits] at hj
      rwa [Option.some.inj hj] at hwrites
    · cases h
  · exact decode?_of_writes

theorem mem_of_writes {cs : List Char} {bytes : List UInt8} (h : Writes cs bytes) {c : Char}
    (hc : c ∈ cs) : 0x2B ≤ c.toNat ∧ c.toNat < 0x7B := by
  obtain ⟨known, group, fits⟩ := h
  obtain hc | hc := List.mem_append.mp hc
  · obtain ⟨n, hn⟩ := exists_of_mem_known known hc
    exact (toNat_of_sextet? hn).2
  · obtain rfl := (List.mem_replicate.mp hc).2
    decide

/-! ### What the writer writes -/

theorem sextet?_symbol : ∀ n < 64, sextet? (symbol n) = some n := by
  decide

theorem length_symbols (bytes : List UInt8) :
    paddingLimit? (symbols bytes).length = some (paddingLength bytes) := by
  fun_induction symbols bytes with
  | case1 | case2 | case3 => rfl
  | case4 x y z rest ih =>
      simpa only [paddingLimit?, paddingLength, List.length_cons, Nat.add_assoc, Nat.reduceAdd,
        Nat.add_mod_right] using ih

section Bytes
variable {x : UInt8} {m n : Nat}

theorem firstByte_of (h : n / 16 = x.toNat % 4) : firstByte (x.toNat / 4) n = x := by
  rw [firstByte, h, show x.toNat / 4 * 4 + x.toNat % 4 = x.toNat by omega, UInt8.ofNat_toNat]

theorem secondByte_of (hm : m % 16 = x.toNat / 16) (hn : n / 4 = x.toNat % 16) :
    secondByte m n = x := by
  rw [secondByte, hm, hn, show x.toNat / 16 * 16 + x.toNat % 16 = x.toNat by omega,
    UInt8.ofNat_toNat]

theorem thirdByte_of (h : m % 4 = x.toNat / 64) : thirdByte m (x.toNat % 64) = x := by
  rw [thirdByte, h, show x.toNat / 64 * 64 + x.toNat % 64 = x.toNat by omega, UInt8.ofNat_toNat]

end Bytes

/-- The bits of the symbols are those of the bytes, with zeros to the end of the last symbol. -/
theorem exists_sextets (bytes : List UInt8) :
    ∃ sextets : List Nat, (symbols bytes).map sextet? = sextets.map some ∧
      octets (sextets.flatMap sextetBits) = bytes := by
  have hlt (x : UInt8) : x.toNat < 256 := x.toNat_lt_size
  fun_induction symbols bytes with
  | case1 => exact ⟨[], rfl, rfl⟩
  | case2 x =>
      have hx := hlt x
      have ha : x.toNat / 4 < 64 := by omega
      have hb : x.toNat % 4 * 16 < 64 := by omega
      refine ⟨[x.toNat / 4, x.toNat % 4 * 16], ?_, ?_⟩
      · simp only [List.map_cons, List.map_nil, sextet?_symbol _ ha, sextet?_symbol _ hb]
      · rw [octets_two ha hb, firstByte_of (by omega)]
  | case3 x y =>
      have hx := hlt x
      have hy := hlt y
      have ha : x.toNat / 4 < 64 := by omega
      have hb : x.toNat % 4 * 16 + y.toNat / 16 < 64 := by omega
      have hc : y.toNat % 16 * 4 < 64 := by omega
      refine ⟨[x.toNat / 4, x.toNat % 4 * 16 + y.toNat / 16, y.toNat % 16 * 4], ?_, ?_⟩
      · simp only [List.map_cons, List.map_nil, sextet?_symbol _ ha, sextet?_symbol _ hb,
          sextet?_symbol _ hc]
      · rw [octets_three ha hb hc, firstByte_of (by omega),
          secondByte_of (x := y) (by omega) (by omega)]
  | case4 x y z rest ih =>
      obtain ⟨sextets, hknown, hbytes⟩ := ih
      have hx := hlt x
      have hy := hlt y
      have hz := hlt z
      have ha : x.toNat / 4 < 64 := by omega
      have hb : x.toNat % 4 * 16 + y.toNat / 16 < 64 := by omega
      have hc : y.toNat % 16 * 4 + z.toNat / 64 < 64 := by omega
      have hd : z.toNat % 64 < 64 := by omega
      refine ⟨x.toNat / 4 :: (x.toNat % 4 * 16 + y.toNat / 16) ::
        (y.toNat % 16 * 4 + z.toNat / 64) :: z.toNat % 64 :: sextets, ?_, ?_⟩
      · simp only [List.map_cons, sextet?_symbol _ ha, sextet?_symbol _ hb, sextet?_symbol _ hc,
          sextet?_symbol _ hd, hknown]
      · rw [octets_four ha hb hc hd, firstByte_of (by omega),
          secondByte_of (x := y) (by omega) (by omega), thirdByte_of (by omega), hbytes]

/-- What the writer writes is well formed, also with some of the padding left out. -/
theorem writes_symbols {bytes : List UInt8} {padding : Nat} (h : padding ≤ paddingLength bytes) :
    Writes (symbols bytes ++ List.replicate padding '=') bytes := by
  obtain ⟨sextets, hknown, hbytes⟩ := exists_sextets bytes
  have hwrites := Writes.intro hknown (length_symbols bytes) h
  rwa [hbytes] at hwrites

end AccessLine.Text.Base64
