/-
A memory of bytes behind any state: words of it in little-endian order, copies between two places,
and lists whose links are two words at the start of each node.
-/
import Mathlib.Data.List.GetD
import Mathlib.Tactic
import Fos.Lib.LinkedList

namespace Fos.Lib

/-- The bytes at the addresses of a state. -/
structure ByteMemory (M : Type) where
  load : M → Nat → UInt8
  store : M → Nat → UInt8 → M

namespace ByteMemory

variable {M : Type}

/-- On the addresses `A` a store is seen by later loads, and at its own address only, as long as `G` holds; and it keeps
`G`. -/
structure Lawful (B : ByteMemory M) (G : M → Prop) (A : Nat → Prop) : Prop where
  store : ∀ m a v, G m → A a → G (B.store m a v) ∧
    ∀ c, A c → B.load (B.store m a v) c = if c = a then v else B.load m c

/-! ## Words -/

section Words

variable (B : ByteMemory M)

def storeBytes (m : M) (a : Nat) : List UInt8 → M
  | [] => m
  | b :: bs => storeBytes (B.store m a b) (a + 1) bs

def loadBytes (m : M) (a : Nat) : Nat → List UInt8
  | 0 => []
  | n + 1 => B.load m a :: loadBytes m (a + 1) n

/-- The low `n` bytes of a number, the lowest first. -/
def toBytes (v : Nat) : Nat → List UInt8
  | 0 => []
  | n + 1 => UInt8.ofNat v :: toBytes (v / 256) n

/-- The number that bytes stand for, the lowest first. -/
def ofBytes : List UInt8 → Nat
  | [] => 0
  | b :: bs => b.toNat + 256 * ofBytes bs

def load32 (m : M) (a : Nat) : Nat := ofBytes (B.loadBytes m a 4)

def store32 (m : M) (a v : Nat) : M := B.storeBytes m a (toBytes v 4)

end Words

theorem length_toBytes : ∀ (n v : Nat), (toBytes v n).length = n
  | 0, _ => rfl
  | n + 1, v => congrArg Nat.succ (length_toBytes n (v / 256))

theorem getD_toBytes : ∀ {n v i : Nat}, i < n → (toBytes v n).getD i 0 = UInt8.ofNat (v / 256 ^ i)
  | n + 1, v, 0, _ => by simp [toBytes]
  | n + 1, v, i + 1, h => by
    rw [toBytes, List.getD_cons_succ, getD_toBytes (by omega), Nat.div_div_eq_div_mul, ← pow_succ']

theorem ofBytes_toBytes : ∀ {n v : Nat}, v < 256 ^ n → ofBytes (toBytes v n) = v
  | 0, v, h => by simpa [toBytes, ofBytes] using (Nat.lt_one_iff.1 h).symm
  | n + 1, v, h => by
    have hdiv : v / 256 < 256 ^ n := Nat.div_lt_of_lt_mul (by rwa [pow_succ, Nat.mul_comm] at h)
    rw [toBytes, ofBytes, ofBytes_toBytes hdiv, UInt8.toNat_ofNat']
    exact Nat.mod_add_div v 256

section Rules

variable {B : ByteMemory M} {G : M → Prop} {A : Nat → Prop} {m m' : M} {a : Nat}

theorem loadBytes_congr : ∀ {n a : Nat}, (∀ i < n, B.load m' (a + i) = B.load m (a + i)) →
    B.loadBytes m' a n = B.loadBytes m a n
  | 0, _, _ => rfl
  | n + 1, a, h => by
    have hrest : B.loadBytes m' (a + 1) n = B.loadBytes m (a + 1) n := loadBytes_congr fun i hi => by
      rw [Nat.add_right_comm a 1 i]
      exact h (i + 1) (by omega)
    rw [loadBytes, loadBytes, hrest, show B.load m' a = B.load m a from h 0 (by omega)]

theorem length_loadBytes : ∀ (n a : Nat), (B.loadBytes m a n).length = n
  | 0, _ => rfl
  | n + 1, a => congrArg Nat.succ (length_loadBytes n (a + 1))

theorem getD_loadBytes : ∀ {n a i : Nat}, i < n → (B.loadBytes m a n).getD i 0 = B.load m (a + i)
  | n + 1, a, 0, _ => rfl
  | n + 1, a, i + 1, h => by
    rw [loadBytes, List.getD_cons_succ, getD_loadBytes (by omega), Nat.add_right_comm a 1 i]
    rfl

theorem storeBytes_spec (hB : B.Lawful G A) : ∀ (bs : List UInt8) {m : M} {a : Nat}, G m →
    (∀ i < bs.length, A (a + i)) → G (B.storeBytes m a bs) ∧
      ∀ c, A c → B.load (B.storeBytes m a bs) c = if a ≤ c ∧ c < a + bs.length then bs.getD (c - a) 0 else B.load m c
  | [], m, a, hG, _ => ⟨hG, fun c _ => by rw [if_neg (by simp only [List.length_nil]; omega)]; rfl⟩
  | b :: bs, m, a, hG, hA => by
    obtain ⟨hG₁, h₁⟩ := hB.store m a b hG (hA 0 (by simp))
    have hA' : ∀ i < bs.length, A (a + 1 + i) := by
      intro i hi
      rw [Nat.add_right_comm a 1 i]
      exact hA (i + 1) (by simpa using hi)
    obtain ⟨hG₂, h₂⟩ := storeBytes_spec hB bs hG₁ hA'
    refine ⟨hG₂, fun c hc => ?_⟩
    rw [storeBytes, h₂ c hc, List.length_cons]
    by_cases hlow : a + 1 ≤ c ∧ c < a + 1 + bs.length
    · rw [if_pos hlow, if_pos (by omega), show c - a = c - (a + 1) + 1 by omega, List.getD_cons_succ]
    · rw [if_neg hlow, h₁ c hc]
      by_cases hca : c = a
      · rw [if_pos hca, if_pos (by omega), hca, Nat.sub_self]
        rfl
      · rw [if_neg hca, if_neg (by omega)]

/-- A stored word is read back, and the bytes beside it stay. -/
theorem store32_spec (hB : B.Lawful G A) (hG : G m) (hA : ∀ i < 4, A (a + i)) {v : Nat} (hv : v < 4294967296) :
    G (B.store32 m a v) ∧ B.load32 (B.store32 m a v) a = v ∧
      ∀ c, A c → ¬ (a ≤ c ∧ c < a + 4) → B.load (B.store32 m a v) c = B.load m c := by
  have hlen : (toBytes v 4).length = 4 := length_toBytes 4 v
  obtain ⟨hG', h⟩ := storeBytes_spec hB (toBytes v 4) hG (by rwa [hlen])
  refine ⟨hG', ?_, fun c hc hout => ?_⟩
  · have hback : B.loadBytes (B.store32 m a v) a 4 = toBytes v 4 := by
      apply List.ext_getElem (by rw [length_loadBytes, hlen])
      intro i hi hi'
      rw [length_loadBytes] at hi
      have hload := getD_loadBytes (B := B) (m := B.store32 m a v) (a := a) hi
      rw [List.getD_eq_getElem _ _ (by rwa [length_loadBytes])] at hload
      rw [hload, store32, h (a + i) (hA i hi), hlen, if_pos (by omega), Nat.add_sub_cancel_left,
        List.getD_eq_getElem _ _ (by rwa [hlen])]
    rw [load32, hback, ofBytes_toBytes hv]
  · rw [store32, h c hc, hlen, if_neg hout]

theorem load32_congr (h : ∀ i < 4, B.load m' (a + i) = B.load m (a + i)) : B.load32 m' a = B.load32 m a := by
  rw [load32, load32, loadBytes_congr h]

end Rules

/-! ## Fills -/

section Fills

variable (B : ByteMemory M)

/-- The same block of bytes `n` times. -/
def fillBlocks (m : M) (a : Nat) (block : List UInt8) : Nat → M
  | 0 => m
  | n + 1 => fillBlocks (B.storeBytes m a block) (a + block.length) block n

/-- The same byte `n` times. -/
def fillBytes (m : M) (a : Nat) (b : UInt8) : Nat → M
  | 0 => m
  | n + 1 => fillBytes (B.store m a b) (a + 1) b n

variable {B} {G : M → Prop} {A : Nat → Prop} {m : M}

theorem fillBytes_spec (hB : B.Lawful G A) {b : UInt8} : ∀ (n : Nat) {m : M} (a : Nat), G m → (∀ i < n, A (a + i)) →
    G (B.fillBytes m a b n) ∧ ∀ c, A c → B.load (B.fillBytes m a b n) c = if a ≤ c ∧ c < a + n then b else B.load m c
  | 0, m, a, hG, _ => ⟨hG, fun c _ => by rw [if_neg (by omega)]; rfl⟩
  | n + 1, m, a, hG, hA => by
    obtain ⟨hG₁, h₁⟩ := hB.store m a b hG (hA 0 (by omega))
    obtain ⟨hG₂, h₂⟩ := fillBytes_spec hB n (a + 1) hG₁ fun i hi => by
      rw [Nat.add_assoc]
      exact hA (1 + i) (by omega)
    refine ⟨hG₂, fun c hc => ?_⟩
    rw [fillBytes, h₂ c hc, h₁ c hc]
    by_cases hlate : a + 1 ≤ c ∧ c < a + 1 + n
    · rw [if_pos hlate, if_pos (by omega)]
    · rw [if_neg hlate]
      by_cases hca : c = a
      · rw [if_pos hca, if_pos (by omega)]
      · rw [if_neg hca, if_neg (by omega)]

theorem fillBlocks_spec (hB : B.Lawful G A) (block : List UInt8) : ∀ (n : Nat) {m : M} (a : Nat), G m →
    (∀ i < n * block.length, A (a + i)) → G (B.fillBlocks m a block n) ∧
      ∀ c, A c → B.load (B.fillBlocks m a block n) c =
        if a ≤ c ∧ c < a + n * block.length then block.getD ((c - a) % block.length) 0 else B.load m c
  | 0, m, a, hG, _ => ⟨hG, fun c _ => by rw [if_neg (by omega)]; rfl⟩
  | n + 1, m, a, hG, hA => by
    have hlen : (n + 1) * block.length = block.length + n * block.length := by ring
    rw [hlen] at hA ⊢
    obtain ⟨hG₁, h₁⟩ := storeBytes_spec hB block hG fun i hi => hA i (by omega)
    obtain ⟨hG₂, h₂⟩ := fillBlocks_spec hB block n (a + block.length) hG₁ fun i hi => by
      rw [Nat.add_assoc]
      exact hA _ (by omega)
    refine ⟨hG₂, fun c hc => ?_⟩
    rw [fillBlocks, h₂ c hc, h₁ c hc]
    by_cases hlate : a + block.length ≤ c ∧ c < a + block.length + n * block.length
    · rw [if_pos hlate, if_pos (by omega), Nat.sub_add_eq, ← Nat.mod_eq_sub_mod (by omega)]
    · rw [if_neg hlate]
      by_cases hearly : a ≤ c ∧ c < a + block.length
      · rw [if_pos hearly, if_pos (by omega), Nat.mod_eq_of_lt (by omega)]
      · rw [if_neg hearly, if_neg (by omega)]

end Fills

/-! ## Copies -/

section Copies

variable (B : ByteMemory M)

/-- The loop of `memcpy` over blocks of eight bytes. -/
def copyWords (m : M) (dst src : Nat) : Nat → M
  | 0 => m
  | n + 1 => copyWords (B.storeBytes m dst (B.loadBytes m src 8)) (dst + 8) (src + 8) n

/-- The loop of `memcpy` over single bytes. -/
def copyBytes (m : M) (dst src : Nat) : Nat → M
  | 0 => m
  | n + 1 => copyBytes (B.store m dst (B.load m src)) (dst + 1) (src + 1) n

/-- `memcpy`. -/
def memcpy (m : M) (dst src n : Nat) : M :=
  B.copyBytes (B.copyWords m dst src (n / 8)) (dst + n / 8 * 8) (src + n / 8 * 8) (n % 8)

/-- The loop of `memmove` from the last byte down. -/
def copyBack (m : M) (dst src : Nat) : Nat → M
  | 0 => m
  | n + 1 => copyBack (B.store m (dst + n) (B.load m (src + n))) dst src n

/-- `memmove`. -/
def memmove (m : M) (dst src n : Nat) : M :=
  if src < dst ∧ dst < src + n then B.copyBack m dst src n else B.copyBytes m dst src n

end Copies

/-- `n` bytes from `src` on are now also at `dst`, and the other bytes are as before. -/
def Copied (B : ByteMemory M) (A : Nat → Prop) (m m' : M) (dst src n : Nat) : Prop :=
  ∀ c, A c → B.load m' c = if dst ≤ c ∧ c < dst + n then B.load m (src + (c - dst)) else B.load m c

section CopyRules

variable {B : ByteMemory M} {G : M → Prop} {A : Nat → Prop}

/-- One copy after another one that ends where it begins. -/
theorem Copied.trans {m m₁ m₂ : M} {dst src k n : Nat} (h₁ : B.Copied A m m₁ dst src k)
    (h₂ : B.Copied A m₁ m₂ (dst + k) (src + k) n) (hsrc : ∀ i < k + n, A (src + i))
    (hdis : src + (k + n) ≤ dst ∨ dst ≤ src) : B.Copied A m m₂ dst src (k + n) := by
  intro c hc
  rw [h₂ c hc]
  by_cases hlate : dst + k ≤ c ∧ c < dst + k + n
  · -- the bytes read were not written before
    rw [if_pos hlate, if_pos (by omega),
      h₁ _ (by have := hsrc (k + (c - (dst + k))) (by omega); rwa [← Nat.add_assoc] at this), if_neg (by omega)]
    congr 1
    omega
  · rw [if_neg hlate, h₁ c hc]
    by_cases hearly : dst ≤ c ∧ c < dst + k
    · rw [if_pos hearly, if_pos (by omega)]
    · rw [if_neg hearly, if_neg (by omega)]

theorem copyBytes_spec (hB : B.Lawful G A) : ∀ (n : Nat) {m : M} (dst src : Nat), G m → (∀ i < n, A (dst + i)) →
    (∀ i < n, A (src + i)) → (src + n ≤ dst ∨ dst ≤ src) →
      G (B.copyBytes m dst src n) ∧ B.Copied A m (B.copyBytes m dst src n) dst src n
  | 0, m, dst, src, hG, _, _, _ => ⟨hG, fun c _ => by rw [if_neg (by omega)]; rfl⟩
  | n + 1, m, dst, src, hG, hd, hs, hdis => by
    obtain ⟨hG₁, h₁⟩ := hB.store m dst (B.load m src) hG (hd 0 (by omega))
    have hone : B.Copied A m (B.store m dst (B.load m src)) dst src 1 := by
      intro c hc
      rw [h₁ c hc]
      by_cases hcd : c = dst
      · rw [if_pos hcd, if_pos (by omega), hcd, Nat.sub_self]; rfl
      · rw [if_neg hcd, if_neg (by omega)]
    obtain ⟨hG₂, h₂⟩ := copyBytes_spec hB n (dst + 1) (src + 1) hG₁
      (fun i hi => by rw [Nat.add_assoc]; exact hd (1 + i) (by omega))
      (fun i hi => by rw [Nat.add_assoc]; exact hs (1 + i) (by omega)) (by omega)
    have hrest := hone.trans h₂ (by rwa [Nat.add_comm 1 n]) (by rwa [Nat.add_comm 1 n])
    rw [Nat.add_comm 1 n] at hrest
    exact ⟨hG₂, hrest⟩

theorem copyWords_spec (hB : B.Lawful G A) : ∀ (n : Nat) {m : M} (dst src : Nat), G m → (∀ i < n * 8, A (dst + i)) →
    (∀ i < n * 8, A (src + i)) → (src + n * 8 ≤ dst ∨ dst ≤ src) →
      G (B.copyWords m dst src n) ∧ B.Copied A m (B.copyWords m dst src n) dst src (n * 8)
  | 0, m, dst, src, hG, _, _, _ => ⟨hG, fun c _ => by rw [if_neg (by omega)]; rfl⟩
  | n + 1, m, dst, src, hG, hd, hs, hdis => by
    have hlen : (B.loadBytes m src 8).length = 8 := length_loadBytes 8 src
    obtain ⟨hG₁, h₁⟩ := storeBytes_spec hB (B.loadBytes m src 8) hG (fun i hi => hd i (by omega))
    have hone : B.Copied A m (B.storeBytes m dst (B.loadBytes m src 8)) dst src 8 := by
      intro c hc
      rw [h₁ c hc, hlen]
      by_cases hcd : dst ≤ c ∧ c < dst + 8
      · rw [if_pos hcd, if_pos hcd, getD_loadBytes (by omega)]
      · rw [if_neg hcd, if_neg hcd]
    obtain ⟨hG₂, h₂⟩ := copyWords_spec hB n (dst + 8) (src + 8) hG₁
      (fun i hi => by rw [Nat.add_assoc]; exact hd (8 + i) (by omega))
      (fun i hi => by rw [Nat.add_assoc]; exact hs (8 + i) (by omega)) (by omega)
    have hn : 8 + n * 8 = (n + 1) * 8 := by ring
    have hrest := hone.trans h₂ (by rwa [hn]) (by rwa [hn])
    rw [hn] at hrest
    exact ⟨hG₂, hrest⟩

/-- A copy between two places that do not overlap, or down to a lower address. -/
theorem memcpy_spec (hB : B.Lawful G A) {n : Nat} {m : M} {dst src : Nat} (hG : G m) (hd : ∀ i < n, A (dst + i))
    (hs : ∀ i < n, A (src + i)) (hdis : src + n ≤ dst ∨ dst ≤ src) :
    G (B.memcpy m dst src n) ∧ B.Copied A m (B.memcpy m dst src n) dst src n := by
  have hn : n / 8 * 8 + n % 8 = n := Nat.div_add_mod' n 8
  obtain ⟨hG₁, h₁⟩ := copyWords_spec hB (n / 8) dst src hG (fun i hi => hd i (by omega))
    (fun i hi => hs i (by omega)) (by omega)
  obtain ⟨hG₂, h₂⟩ := copyBytes_spec hB (n % 8) (dst + n / 8 * 8) (src + n / 8 * 8) hG₁
    (fun i hi => by rw [Nat.add_assoc]; exact hd _ (by omega))
      (fun i hi => by rw [Nat.add_assoc]; exact hs _ (by omega))
    (by omega)
  have h := h₁.trans h₂ (by rwa [hn]) (by rwa [hn])
  rw [hn] at h
  exact ⟨hG₂, h⟩

/-- Nothing but the bytes from `dst` to `fin` was written. -/
def WritesTo (B : ByteMemory M) (G : M → Prop) (A : Nat → Prop) (m m' : M) (dst fin : Nat) : Prop :=
  G m' ∧ ∀ c, A c → ¬ (dst ≤ c ∧ c < fin) → B.load m' c = B.load m c

theorem WritesTo.trans {m m₁ m₂ : M} {dst k fin : Nat} (h₁ : B.WritesTo G A m m₁ dst k)
    (h₂ : B.WritesTo G A m₁ m₂ k fin)
    (hk : dst ≤ k) (hle : k ≤ fin) : B.WritesTo G A m m₂ dst fin :=
  ⟨h₂.1, fun c hc hout => (h₂.2 c hc (by omega)).trans (h₁.2 c hc (by omega))⟩

theorem copyBytes_writes (hB : B.Lawful G A) : ∀ (n : Nat) {m : M} (dst src : Nat), G m → (∀ i < n, A (dst + i)) →
    B.WritesTo G A m (B.copyBytes m dst src n) dst (dst + n)
  | 0, m, dst, src, hG, _ => ⟨hG, fun _ _ _ => rfl⟩
  | n + 1, m, dst, src, hG, hd => by
    obtain ⟨hG₁, h₁⟩ := hB.store m dst (B.load m src) hG (hd 0 (by omega))
    have hone : B.WritesTo G A m (B.store m dst (B.load m src)) dst (dst + 1) :=
      ⟨hG₁, fun c hc hout => by rw [h₁ c hc, if_neg (by omega)]⟩
    have hrest := copyBytes_writes hB n (dst + 1) (src + 1) hG₁ fun i hi => by
      rw [Nat.add_assoc]
      exact hd (1 + i) (by omega)
    rw [show dst + 1 + n = dst + (n + 1) by omega] at hrest
    exact hone.trans hrest (by omega) (by omega)

theorem copyWords_writes (hB : B.Lawful G A) : ∀ (n : Nat) {m : M} (dst src : Nat), G m → (∀ i < n * 8, A (dst + i)) →
    B.WritesTo G A m (B.copyWords m dst src n) dst (dst + n * 8)
  | 0, m, dst, src, hG, _ => ⟨hG, fun _ _ _ => rfl⟩
  | n + 1, m, dst, src, hG, hd => by
    have hlen : (B.loadBytes m src 8).length = 8 := length_loadBytes 8 src
    obtain ⟨hG₁, h₁⟩ := storeBytes_spec hB (B.loadBytes m src 8) hG (fun i hi => hd i (by omega))
    have hone : B.WritesTo G A m (B.storeBytes m dst (B.loadBytes m src 8)) dst (dst + 8) :=
      ⟨hG₁, fun c hc hout => by rw [h₁ c hc, hlen, if_neg hout]⟩
    have hrest := copyWords_writes hB n (dst + 8) (src + 8) hG₁ fun i hi => by
      rw [Nat.add_assoc]
      exact hd (8 + i) (by omega)
    rw [show dst + 8 + n * 8 = dst + (n + 1) * 8 by omega] at hrest
    exact hone.trans hrest (by omega) (by omega)

/-- Wherever it reads, `memcpy` writes to its destination alone. -/
theorem memcpy_writes (hB : B.Lawful G A) {n : Nat} {m : M} {dst src : Nat} (hG : G m) (hd : ∀ i < n, A (dst + i)) :
    B.WritesTo G A m (B.memcpy m dst src n) dst (dst + n) := by
  have hn : n / 8 * 8 + n % 8 = n := Nat.div_add_mod' n 8
  have hwords := copyWords_writes hB (n / 8) dst src hG fun i hi => hd i (by omega)
  have hrest := copyBytes_writes hB (n % 8) (dst + n / 8 * 8) (src + n / 8 * 8) hwords.1 fun i hi => by
    rw [Nat.add_assoc]
    exact hd _ (by omega)
  rw [Nat.add_assoc, hn] at hrest
  exact hwords.trans hrest (by omega) (by omega)

/-- A `memmove` that goes up, as it does unless it moves bytes up onto themselves. -/
theorem memmove_spec (hB : B.Lawful G A) {n : Nat} {m : M} {dst src : Nat} (hG : G m) (hd : ∀ i < n, A (dst + i))
    (hs : ∀ i < n, A (src + i)) (hdis : src + n ≤ dst ∨ dst ≤ src) :
    G (B.memmove m dst src n) ∧ B.Copied A m (B.memmove m dst src n) dst src n := by
  rw [memmove, if_neg (by omega)]
  exact copyBytes_spec hB n dst src hG hd hs hdis

end CopyRules

/-! ## Links in the nodes -/

/-- Links kept in the nodes: the next node in the first word, the node before in the second. -/
def links (B : ByteMemory M) : Links M Nat where
  next m x := B.load32 m x
  prev m x := B.load32 m (x + 4)
  setNext m x v := B.store32 m x v
  setPrev m x v := B.store32 m (x + 4) v

/-- Nodes with eight bytes each, none of which two of them share. -/
theorem links_lawful {B : ByteMemory M} {G : M → Prop} {A N : Nat → Prop} (hB : B.Lawful G A) (h0 : ¬ N 0)
    (hlt : ∀ x, N x → x < 4294967296) (hA : ∀ x, N x → ∀ i < 8, A (x + i))
    (hapart : ∀ x y, N x → N y → x ≠ y → x + 8 ≤ y ∨ y + 8 ≤ x) : B.links.Lawful 0 G N := by
  have hv : ∀ {v}, v = 0 ∨ N v → v < 4294967296 := fun {v} h => by
    rcases h with rfl | h
    · decide
    · exact hlt v h
  refine ⟨h0, fun m x v hG hx hxv => ?_, fun m x v hG hx hxv => ?_⟩
  · obtain ⟨hG', hsame, hother⟩ := store32_spec hB hG (fun i hi => hA x hx i (by omega)) (hv hxv)
    have hkeep : ∀ a, (a + 4 ≤ x ∨ x + 4 ≤ a) → (∀ i < 4, A (a + i)) → B.load32 (B.store32 m x v) a = B.load32 m a :=
      fun a ha hAa => load32_congr fun i hi => hother (a + i) (hAa i hi) (by omega)
    refine ⟨hG', fun y hy => ⟨?_, ?_⟩⟩
    · show B.load32 (B.store32 m x v) y = if y = x then v else B.load32 m y
      by_cases hyx : y = x
      · rw [if_pos hyx, hyx, hsame]
      · have := hapart x y hx hy (Ne.symm hyx)
        rw [if_neg hyx, hkeep y (by omega) fun i hi => hA y hy i (by omega)]
    · show B.load32 (B.store32 m x v) (y + 4) = B.load32 m (y + 4)
      refine hkeep (y + 4) ?_ fun i hi => by rw [Nat.add_assoc]; exact hA y hy (4 + i) (by omega)
      by_cases hyx : y = x
      · omega
      · have := hapart x y hx hy (Ne.symm hyx)
        omega
  · obtain ⟨hG', hsame, hother⟩ := store32_spec hB (a := x + 4) hG
      (fun i hi => by rw [Nat.add_assoc]; exact hA x hx (4 + i) (by omega)) (hv hxv)
    have hkeep : ∀ a, (a + 4 ≤ x + 4 ∨ x + 4 + 4 ≤ a) → (∀ i < 4, A (a + i)) →
        B.load32 (B.store32 m (x + 4) v) a = B.load32 m a :=
      fun a ha hAa => load32_congr fun i hi => hother (a + i) (hAa i hi) (by omega)
    refine ⟨hG', fun y hy => ⟨?_, ?_⟩⟩
    · show B.load32 (B.store32 m (x + 4) v) (y + 4) = if y = x then v else B.load32 m (y + 4)
      by_cases hyx : y = x
      · rw [if_pos hyx, hyx, hsame]
      · have := hapart x y hx hy (Ne.symm hyx)
        rw [if_neg hyx, hkeep (y + 4) (by omega) fun i hi => by rw [Nat.add_assoc]; exact hA y hy (4 + i) (by omega)]
    · show B.load32 (B.store32 m (x + 4) v) y = B.load32 m y
      refine hkeep y ?_ fun i hi => hA y hy i (by omega)
      by_cases hyx : y = x
      · omega
      · have := hapart x y hx hy (Ne.symm hyx)
        omega

end ByteMemory

end Fos.Lib
