/-
`strsplit` of `lib/string.c`: the maximal runs between separators are found in order and ended in place, as long as
there is room for them in `argv`, an array apart from the string. The loops have a bound on their rounds, for which the
length of the string is enough.
-/
import Fos.Lib.Runs
import Fos.Strings.Decimal

namespace Fos.Strings

open Fos.Lib

/-! ## The code -/

/-- Whether `strchr` finds the character. A string that is only read is the list of its characters before the `NUL`. -/
def strchr : List UInt8 → UInt8 → Bool
  | [], _ => false
  | p :: s, c => if p = c then true else strchr s c

def maxArguments : Nat := 16

/-- The loop that trims: separators become `NUL`s. -/
def trimLoop (splitChars : List UInt8) : Nat → Buffer → Nat → Option (Buffer × Nat)
  | 0, _, _ => none
  | fuel + 1, m, string =>
    if m string ≠ 0 ∧ strchr splitChars (m string) = true then
      trimLoop splitChars fuel (Function.update m string 0) (string + 1)
    else some (m, string)

/-- The loop that scans past an argument. -/
def scanLoop (splitChars : List UInt8) (m : Buffer) : Nat → Nat → Option Nat
  | 0, _ => none
  | fuel + 1, string =>
    if m string ≠ 0 ∧ strchr splitChars (m string) = false then scanLoop splitChars m fuel (string + 1) else some string

structure SplitResult where
  ret : Int
  memory : Buffer
  argv : Nat → Nat
  argc : Nat

/-- The outer loop, with at most `fuel` rounds, and `limit` for the inner ones. -/
def splitLoop (splitChars : List UInt8) (limit : Nat) : Nat → Buffer → Nat → (Nat → Nat) → Nat → Option SplitResult
  | 0, _, _, _, _ => none
  | fuel + 1, m, string, argv, argc =>
    match trimLoop splitChars limit m string with
    | none => none
    | some (m, string) =>
      if m string = 0 then some ⟨1, m, Function.update argv argc 0, argc⟩
      else if argc = maxArguments - 1 then some ⟨0, m, argv, argc⟩
      else
        match scanLoop splitChars m limit string with
        | none => none
        | some next => splitLoop splitChars limit fuel m next (Function.update argv argc string) (argc + 1)

def strsplit (splitChars : List UInt8) (fuel : Nat) (m : Buffer) (string : Nat) (argv : Nat → Nat) :
    Option SplitResult :=
  splitLoop splitChars fuel fuel m string (Function.update argv 0 0) 0

/-! ## The inner loops -/

/-- A string of `n` characters. -/
structure IsText (m : Buffer) (string n : Nat) : Prop where
  chars : ∀ k < n, m (string + k) ≠ 0
  nul : m (string + n) = 0

/-- Whether the character at a place of the string is a separator. -/
def isSep (splitChars : List UInt8) (m : Buffer) (string k : Nat) : Bool := strchr splitChars (m (string + k))

section Loops

variable {m m₀ : Buffer} {string n : Nat}

theorem trimLoop_spec (splitChars : List UInt8) (ht : IsText m₀ string n) :
    ∀ (limit i : Nat) (m : Buffer), i ≤ n → n - i < limit →
      (∀ k, i ≤ k → k ≤ n → m (string + k) = m₀ (string + k)) → ∃ j m', i ≤ j ∧ j ≤ n ∧
      trimLoop splitChars limit m (string + i) = some (m', string + j) ∧
      (∀ k, i ≤ k → k < j → isSep splitChars m₀ string k = true) ∧ (j = n ∨ isSep splitChars m₀ string j = false) ∧
      ∀ a, m' a = if string + i ≤ a ∧ a < string + j then 0 else m a
  | 0, i, m, _, h, _ => absurd h (by omega)
  | limit + 1, i, m, hi, hlimit, hm => by
    have hchar := hm i le_rfl hi
    rw [trimLoop, hchar]
    by_cases hgo : m₀ (string + i) ≠ 0 ∧ strchr splitChars (m₀ (string + i)) = true
    · have hlt : i < n := by
        rcases Nat.lt_or_ge i n with hlt | hge
        · exact hlt
        · obtain rfl : i = n := by omega
          exact absurd ht.nul hgo.1
      have hm' : ∀ k, i + 1 ≤ k → k ≤ n → Function.update m (string + i) 0 (string + k) = m₀ (string + k) :=
          fun k h1 h2 => by
        rw [Function.update_of_ne (by omega), hm k (by omega) h2]
      obtain ⟨j, m', hij, hjn, hrun, hsep, hstop, hmem⟩ :=
        trimLoop_spec splitChars ht limit (i + 1) _ hlt (by omega) hm'
      refine ⟨j, m', by omega, hjn, ?_, fun k h1 h2 => ?_, hstop, fun a => ?_⟩
      · rw [if_pos hgo]
        exact hrun
      · by_cases hk : k = i
        · rw [hk]
          exact hgo.2
        · exact hsep k (by omega) h2
      · rw [hmem a]
        by_cases ha : a = string + i
        · rw [ha, if_neg (by omega), Function.update_self, if_pos ⟨le_rfl, by omega⟩]
        · rw [Function.update_of_ne ha]
          congr 1
          exact propext (and_congr_left fun _ => by omega)
    · refine ⟨i, m, le_rfl, hi, if_neg hgo, fun k h1 h2 => by omega, ?_, fun a => ?_⟩
      · rcases Nat.lt_or_ge i n with hlt | hge
        · right
          rw [not_and, Bool.not_eq_true] at hgo
          exact hgo (ht.chars i hlt)
        · exact .inl (by omega)
      · rw [if_neg (by omega)]

theorem scanLoop_spec (splitChars : List UInt8) (ht : IsText m₀ string n) : ∀ (limit i : Nat), i ≤ n → n - i < limit →
    (∀ k, i ≤ k → k ≤ n → m (string + k) = m₀ (string + k)) → ∃ j, i ≤ j ∧ j ≤ n ∧
      scanLoop splitChars m limit (string + i) = some (string + j) ∧
      (∀ k, i ≤ k → k < j → isSep splitChars m₀ string k = false) ∧ (j = n ∨ isSep splitChars m₀ string j = true)
  | 0, i, _, h, _ => absurd h (by omega)
  | limit + 1, i, hi, hlimit, hm => by
    have hchar := hm i le_rfl hi
    rw [scanLoop, hchar]
    by_cases hgo : m₀ (string + i) ≠ 0 ∧ strchr splitChars (m₀ (string + i)) = false
    · have hlt : i < n := by
        rcases Nat.lt_or_ge i n with hlt | hge
        · exact hlt
        · obtain rfl : i = n := by omega
          exact absurd ht.nul hgo.1
      obtain ⟨j, hij, hjn, hrun, hsep, hstop⟩ := scanLoop_spec splitChars ht limit (i + 1) hlt (by omega)
        fun k h1 h2 => hm k (by omega) h2
      refine ⟨j, by omega, hjn, ?_, fun k h1 h2 => ?_, hstop⟩
      · rw [if_pos hgo]
        exact hrun
      · by_cases hk : k = i
        · rw [hk]
          exact hgo.2
        · exact hsep k (by omega) h2
    · refine ⟨i, le_rfl, hi, if_neg hgo, fun k h1 h2 => by omega, ?_⟩
      rcases Nat.lt_or_ge i n with hlt | hge
      · right
        rw [not_and, Bool.not_eq_false] at hgo
        exact hgo (ht.chars i hlt)
      · exact .inl (by omega)

end Loops

/-! ## The runs -/

/-- What the loop does from place `i` on, where `argc` arguments are known and the runs `rs` are still to be found. -/
structure Outcome (sep : Nat → Bool) (string n : Nat) (m : Buffer) (argv : Nat → Nat) (argc i : Nat)
    (rs : List (Nat × Nat)) (r : SplitResult) : Prop where
  count : r.argc = min 15 (argc + rs.length)
  ret : r.ret = if argc + rs.length ≤ 15 then 1 else 0
  kept : ∀ k < argc, r.argv k = argv k
  starts : ∀ k a b, rs[k]? = some (a, b) → argc + k < 15 → r.argv (argc + k) = string + a
  ends : ∀ k a b, rs[k]? = some (a, b) → argc + k < 15 → r.memory (string + b) = 0
  last : r.ret = 1 → r.argv r.argc = 0
  beyond : ∀ k, 15 < k → r.argv k = argv k
  memory : ∀ a, r.memory a = m a ∨ r.memory a = 0 ∧ ∃ k, i ≤ k ∧ k < n ∧ sep k = true ∧ a = string + k
  here : i < n → sep i = true → r.memory (string + i) = 0

section Runs

variable {m m₀ : Buffer} {string n limit : Nat}

/-- A run that is open at the place where it starts is the first of those to come. -/
theorem runsFrom_first {sep : Nat → Bool} {i j : Nat} (hij : i < j) (hjn : j ≤ n)
    (hin : ∀ k, i ≤ k → k < j → sep k = false) (hstop : j = n ∨ sep j = true) :
    runsFrom sep none i (n - i) = (i, j) :: runsFrom sep none j (n - j) := by
  obtain ⟨d, rfl⟩ := Nat.exists_eq_add_of_lt hij
  have hsplit : n - i = n - (i + d + 1) + d + 1 := by omega
  have hjoin : n - (i + d + 1) + d + 1 = (d + 1) + (n - (i + d + 1)) := by omega
  rw [hsplit, runsFrom_open (hin i le_rfl hij), hjoin, runsFrom_scan fun k h1 h2 => hin k h1 (by omega),
    ← Nat.add_assoc, runsFrom_close]
  exact hstop.imp (fun he => by omega) id

theorem splitLoop_spec (splitChars : List UInt8) (ht : IsText m₀ string n) (hlimit : n < limit) :
    ∀ (fuel i argc : Nat) (m : Buffer) (argv : Nat → Nat), i ≤ n → n - i < fuel → argc ≤ 15 →
      (∀ k, i ≤ k → k ≤ n → m (string + k) = m₀ (string + k)) →
      ∃ r, splitLoop splitChars limit fuel m (string + i) argv argc = some r ∧
        Outcome (isSep splitChars m₀ string) string n m argv argc i
          (runsFrom (isSep splitChars m₀ string) none i (n - i)) r
  | 0, i, argc, m, argv, _, h, _, _ => absurd h (by omega)
  | fuel + 1, i, argc, m, argv, hi, hfuel, hargc, hm => by
    obtain ⟨j, m₁, hij, hjn, htrim, hsep, hstop, hmem⟩ := trimLoop_spec splitChars ht limit i m hi
      (Nat.lt_of_le_of_lt (Nat.sub_le n i) hlimit) hm
    have hm₁ : ∀ k, j ≤ k → k ≤ n → m₁ (string + k) = m₀ (string + k) := by
      intro k h1 h2
      rw [hmem, if_neg (by omega), hm k (by omega) h2]
    -- the trimmed separators hold no run
    have hskip : runsFrom (isSep splitChars m₀ string) none i (n - i) =
        runsFrom (isSep splitChars m₀ string) none j (n - j) := by
      obtain ⟨d, rfl⟩ := Nat.exists_eq_add_of_le hij
      have hsplit : n - i = d + (n - (i + d)) := by omega
      rw [hsplit, runsFrom_skip hsep]
    have hchange : ∀ a, m₁ a = m a ∨ m₁ a = 0 ∧ ∃ k, i ≤ k ∧ k < n ∧ isSep splitChars m₀ string k = true ∧
        a = string + k := by
      intro a
      rw [hmem a]
      split
      · next ha => exact .inr ⟨rfl, a - string, by omega, by omega, hsep _ (by omega) (by omega), by omega⟩
      · exact .inl rfl
    have hhere : i < n → isSep splitChars m₀ string i = true → m₁ (string + i) = 0 := by
      intro hin hs
      have hlt : i < j := by
        rcases Nat.lt_or_ge i j with hlt | hge
        · exact hlt
        · obtain rfl : i = j := by omega
          rcases hstop with rfl | hfalse
          · exact absurd hin (by omega)
          · rw [hfalse] at hs
            cases hs
      rw [hmem, if_pos (by omega)]
    rw [splitLoop, htrim]
    by_cases hend : j = n
    · -- the end of the string
      have hnul : m₁ (string + j) = 0 := by rw [hm₁ j le_rfl hjn, hend, ht.nul]
      have hnone : runsFrom (isSep splitChars m₀ string) none i (n - i) = [] := by
        rw [hskip, hend, Nat.sub_self]
        rfl
      rw [hnone]
      refine ⟨⟨1, m₁, Function.update argv argc 0, argc⟩, if_pos hnul, ?_, ?_, fun k hk => ?_, ?_, ?_, fun _ => ?_,
        fun k hk => ?_, hchange, hhere⟩
      · rw [List.length_nil, Nat.add_zero, Nat.min_eq_right hargc]
      · rw [List.length_nil, Nat.add_zero, if_pos hargc]
      · exact Function.update_of_ne (by omega) _ _
      · simp
      · simp
      · exact Function.update_self _ _ _
      · exact Function.update_of_ne (by omega) _ _
    · have hlt : j < n := by omega
      have hchar : ¬ m₁ (string + j) = 0 := by
        rw [hm₁ j le_rfl hjn]
        exact ht.chars j hlt
      have hrun : isSep splitChars m₀ string j = false := hstop.resolve_left hend
      obtain ⟨e, hje, hen, hscan, hin, hclose⟩ := scanLoop_spec splitChars ht limit j hjn
        (Nat.lt_of_le_of_lt (Nat.sub_le n j) hlimit) hm₁
      have hlt' : j < e := by
        rcases Nat.lt_or_ge j e with hlt' | hge
        · exact hlt'
        · obtain rfl : j = e := by omega
          rcases hclose with he | htrue
          · exact absurd he hend
          · rw [hrun] at htrue
            cases htrue
      have hfirst := runsFrom_first hlt' hen hin hclose
      rw [hskip, hfirst]
      simp only [if_neg hchar]
      by_cases hfull : argc = 15
      · -- no room for another argument
        refine ⟨⟨0, m₁, argv, argc⟩, if_pos hfull, ?_, ?_, fun _ _ => rfl, ?_, ?_, fun h => ?_, fun _ _ => rfl,
          hchange, hhere⟩
        · rw [List.length_cons, Nat.min_eq_left (by omega), hfull]
        · rw [List.length_cons, if_neg (by omega)]
        · exact fun k a b _ hk => absurd hk (by omega)
        · exact fun k a b _ hk => absurd hk (by omega)
        · have hret : (0 : Int) = 1 := h
          exact absurd hret (by decide)
      · obtain ⟨r, hr, ho⟩ := splitLoop_spec splitChars ht hlimit fuel e (argc + 1) m₁
          (Function.update argv argc (string + j)) hen (by omega) (by omega) fun k h1 h2 => hm₁ k (by omega) h2
        have hcount := ho.count
        have hret := ho.ret
        have hsucc : ∀ l : List (Nat × Nat), argc + ((j, e) :: l).length = argc + 1 + l.length := by
          intro l
          rw [List.length_cons]
          omega
        -- what the rest of the loop does to a byte that is `NUL` already, or not of a separator further on
        have hzero : ∀ a, m₁ a = 0 → r.memory a = 0 := by
          intro a ha
          rcases ho.memory a with h | ⟨h, -⟩
          · rw [h, ha]
          · exact h
        refine ⟨r, ?_, ?_, ?_, fun k hk => ?_, ?_, ?_, ho.last, fun k hk => ?_, fun a => ?_,
          fun h1 h2 => hzero _ (hhere h1 h2)⟩
        · have hroom : ¬ argc = maxArguments - 1 := hfull
          rw [if_neg hroom, hscan]
          exact hr
        · rw [hsucc, hcount]
        · rw [hsucc, hret]
        · rw [ho.kept k (by omega), Function.update_of_ne (by omega)]
        · rintro (_ | k) a b hk hroom
          · obtain ⟨rfl, rfl⟩ := Prod.mk.inj (Option.some.inj hk)
            rw [Nat.add_zero, ho.kept argc (by omega), Function.update_self]
          · have hnext : argc + (k + 1) = argc + 1 + k := by omega
            rw [hnext]
            exact ho.starts k a b hk (by omega)
        · rintro (_ | k) a b hk hroom
          · obtain ⟨rfl, rfl⟩ := Prod.mk.inj (Option.some.inj hk)
            rcases hclose with rfl | htrue
            · exact hzero _ (by rw [hm₁ e hje le_rfl, ht.nul])
            · rcases Nat.lt_or_ge e n with hen' | hge
              · exact ho.here hen' htrue
              · obtain rfl : e = n := by omega
                exact hzero _ (by rw [hm₁ e hje le_rfl, ht.nul])
          · exact ho.ends k a b hk (by omega)
        · rw [ho.beyond k hk, Function.update_of_ne (by omega)]
        · rcases ho.memory a with h | ⟨h, k, h1, h2⟩
          · rw [h]
            exact hchange a
          · exact .inr ⟨h, k, by omega, h2⟩

/-- With the runs between separators of a string in order, `strsplit` finds the first fifteen of them, in place: each
argument points to the start of its run, whose characters stay and are followed by a `NUL`. The result says whether
there were no more, at most the first sixteen places of `argv` are written, and of the string only separators. -/
theorem strsplit_runs (ht : IsText m string n) (splitChars : List UInt8) (argv : Nat → Nat) {fuel : Nat}
    (hfuel : n < fuel) :
    ∃ rs r, AllRuns (isSep splitChars m string) n rs ∧ strsplit splitChars fuel m string argv = some r ∧
      r.argc = min (maxArguments - 1) rs.length ∧
      (∀ k a b, k < r.argc → rs[k]? = some (a, b) → r.argv k = string + a ∧
        (∀ i, a ≤ i → i < b → r.memory (string + i) = m (string + i)) ∧ r.memory (string + b) = 0) ∧
      (r.ret = 0 ∨ r.ret = 1) ∧ (r.ret = 1 ↔ rs.length ≤ maxArguments - 1) ∧ (r.ret = 1 → r.argv r.argc = 0) ∧
      (∀ k, maxArguments - 1 < k → r.argv k = argv k) ∧
      ∀ x, r.memory x ≠ m x → r.memory x = 0 ∧ ∃ k, k < n ∧ isSep splitChars m string k = true ∧ x = string + k := by
  obtain ⟨r, hr, ho⟩ := splitLoop_spec splitChars ht hfuel fuel 0 0 m (Function.update argv 0 0)
    (Nat.zero_le n) (by omega) (by omega) fun _ _ _ => rfl
  have hall := allRuns_runsFrom (isSep splitChars m string) n
  have hcount := ho.count
  have hret := ho.ret
  rw [Nat.sub_zero, Nat.zero_add] at hcount hret
  refine ⟨_, r, hall, hr, hcount, fun k a b hk hrs => ⟨?_, fun i h1 h2 => ?_, ?_⟩, ?_, ?_, ho.last, fun k hk => ?_,
    fun x hx => ?_⟩
  · have hstart := ho.starts k a b hrs (by omega)
    rw [Nat.zero_add] at hstart
    exact hstart
  · rcases ho.memory (string + i) with h | ⟨-, k', -, -, hsep, hplace⟩
    · exact h
    · obtain rfl : k' = i := by omega
      have hin := ((hall.mem (a, b)).1 (List.mem_of_getElem? hrs)).inside k' h1 h2
      rw [hin] at hsep
      cases hsep
  · exact ho.ends k a b hrs (by omega)
  · rw [hret]
    split
    · exact .inr rfl
    · exact .inl rfl
  · rw [hret]
    split
    · next hle => exact ⟨fun _ => hle, fun _ => rfl⟩
    · next hgt => exact ⟨fun h => absurd h (by decide), fun h => absurd h hgt⟩
  · have hk0 : k ≠ 0 := by omega
    rw [ho.beyond k hk, Function.update_of_ne hk0]
  · rcases ho.memory x with h | ⟨h, k, -, hk⟩
    · exact absurd h hx
    · exact ⟨h, k, hk⟩

/-- `a b`, at address 100. -/
def twoWords : Buffer := fun a => if a = 100 then 97 else if a = 101 then 32 else if a = 102 then 98 else 0

theorem strsplit_runs_two : ∃ rs r, AllRuns (isSep [32] twoWords 100) 3 rs ∧
    strsplit [32] 4 twoWords 100 (fun _ => 7) = some r ∧ r.argc = min (maxArguments - 1) rs.length ∧
      (r.ret = 1 ↔ rs.length ≤ maxArguments - 1) ∧ (r.ret = 1 → r.argv r.argc = 0) := by
  have htext : IsText twoWords 100 3 := by
    refine ⟨fun k hk => ?_, rfl⟩
    interval_cases k <;> decide
  have hshort : 3 < 4 := by decide
  obtain ⟨rs, r, hall, hr, hcount, -, -, hret, hlast, -⟩ := strsplit_runs htext [32] (fun _ => 7) hshort
  exact ⟨rs, r, hall, hr, hcount, hret, hlast⟩

end Runs

end Fos.Strings
