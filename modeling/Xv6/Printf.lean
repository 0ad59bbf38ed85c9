import Mathlib

/-!
# `printf`, of the kernel and of the user library

Both read the format in the same way and print a number through a buffer of 16 characters.  The kernel's `printint` takes
a `long long` and the library's an `int`, whatever the width of the conversion.
-/

namespace Xv6.Printf

open List

abbrev Word : Type := BitVec 64

def BUF_SIZE : ℕ := 16

/-- The digits of `x` in the order in which they are stored, the lowest one first; `none` if the buffer, which has
`room` places left, is overrun. -/
def putDigits (digits : List Char) (base : ℕ) : ℕ → ℕ → Option (List Char)
  | 0, _ => none
  | room + 1, x =>
    if x / base = 0 then some [digits.getD (x % base) '0']
    else (putDigits digits base room (x / base)).map (digits.getD (x % base) '0' :: ·)

/-- `printint` for numbers of `w` bits. -/
def printintWith {w : ℕ} (digits : List Char) (xx : BitVec w) (base : ℕ) (sign : Bool) : Option (List Char) := do
  let neg := sign && xx.msb
  let x := if neg then -xx else xx
  let buf ← putDigits digits base BUF_SIZE x.toNat
  let buf ← if neg then if buf.length < BUF_SIZE then some (buf ++ ['-']) else none else some buf
  some buf.reverse

/-- The top four bits, `n` times. -/
def nibbles (digits : List Char) : ℕ → Word → List Char
  | 0, _ => []
  | n + 1, x => digits.getD (x >>> 60).toNat '0' :: nibbles digits n (x <<< 4)

def printptrWith (digits : List Char) (x : Word) : List Char := '0' :: 'x' :: nibbles digits 16 x

/-- What a `%` asks for. -/
inductive Conv where
  | int (long : Bool) (base : ℕ) (sign : Bool)
  | ptr | str | percent | unknown

/-- The three conversions that end with `c`, for an `int`, a `long` and a `long long`. -/
def intConversion (c : Char) (base : ℕ) (sign : Bool) (c0 c1 c2 : Char) : Option (Conv × ℕ) :=
  if c0 = c then some (.int false base sign, 0)
  else if c0 = 'l' ∧ c1 = c then some (.int true base sign, 1)
  else if c0 = 'l' ∧ c1 = 'l' ∧ c2 = c then some (.int true base sign, 2)
  else none

/-- The conversion of the characters after a `%`, and how many more than one it takes. -/
def conversion (c0 c1 c2 : Char) : Conv × ℕ :=
  (intConversion 'd' 10 true c0 c1 c2 <|> intConversion 'u' 10 false c0 c1 c2 <|>
    intConversion 'x' 16 false c0 c1 c2).getD
    (if c0 = 'p' then .ptr else if c0 = 's' then .str else if c0 = '%' then .percent else .unknown, 0)

/-- What a conversion prints, and the arguments it leaves; `str` is the string at an address. -/
def convert (printint : Bool → Word → ℕ → Bool → Option (List Char)) (printptr : Word → List Char)
    (str : Word → List Char) (c0 : Char) (ap : List Word) : Conv → Option (List Char × List Word)
  | .int long base sign => (printint long (ap.headD 0) base sign).map (·, ap.tail)
  | .ptr => some (printptr (ap.headD 0), ap.tail)
  | .str => some (if ap.headD 0 = 0 then "(null)".toList else str (ap.headD 0), ap.tail)
  | .percent => some (['%'], ap)
  | .unknown => some (['%', c0], ap)

section

variable (str : Word → List Char)

namespace Kernel

def digits : List Char := "0123456789abcdef".toList

/-- What `va_arg` fetches, a `uint64` or an `int`, as a `long long`. -/
def vaArg (long : Bool) (a : Word) : Word := if long then a else (a.setWidth 32).signExtend 64

def printint (long : Bool) (a : Word) : ℕ → Bool → Option (List Char) := printintWith digits (vaArg long a)

def printptr : Word → List Char := printptrWith digits

/-- The loop of `printf`; `skip` characters of the format belong to the last conversion.  `none` if the buffer of
`printint` is overrun. -/
def loop : List Char → ℕ → List Word → Option (List Char)
  | [], _, _ => some []
  | _ :: fmt, skip + 1, ap => loop fmt skip ap
  | cx :: fmt, 0, ap =>
    if cx ≠ '%' then (loop fmt 0 ap).map (cx :: ·)
    else match fmt.head? with
      | none => some []
      | some c0 => do
        let (conv, more) := conversion c0 (fmt.getD 1 '\x00') (fmt.getD 2 '\x00')
        let (out, ap) ← convert printint printptr str c0 ap conv
        (loop fmt (1 + more) ap).map (out ++ ·)

def printf (fmt : List Char) (ap : List Word) : Option (List Char) := loop str fmt 0 ap

end Kernel

namespace User

def digits : List Char := "0123456789ABCDEF".toList

/-- `printint`, whose argument is an `int`. -/
def printint (_long : Bool) (a : Word) : ℕ → Bool → Option (List Char) := printintWith digits (a.setWidth 32)

def printptr : Word → List Char := printptrWith digits

/-- The loop of `vprintf`; the state is set after a `%`. -/
def loop : List Char → Bool → ℕ → List Word → Option (List Char)
  | [], _, _, _ => some []
  | _ :: fmt, state, skip + 1, ap => loop fmt state skip ap
  | c0 :: fmt, false, 0, ap => if c0 = '%' then loop fmt true 0 ap else (loop fmt false 0 ap).map (c0 :: ·)
  | c0 :: fmt, true, 0, ap => do
    let (conv, more) := conversion c0 (fmt.getD 0 '\x00') (fmt.getD 1 '\x00')
    let (out, ap) ← convert printint printptr str c0 ap conv
    (loop fmt false more ap).map (out ++ ·)

def vprintf (fmt : List Char) (ap : List Word) : Option (List Char) := loop str fmt false 0 ap

end User

end

/-! ### Numerals -/

/-- The numeral of `z`. -/
def numeral (base : ℕ) (z : ℤ) : List Char := (if z < 0 then ['-'] else []) ++ Nat.toDigits base z.natAbs

/-- The number that digits of either case denote. -/
def parseNat (base : ℕ) (cs : List Char) : ℕ := cs.foldl (fun v c => base * v + Kernel.digits.idxOf c.toLower) 0

def parse (base : ℕ) (cs : List Char) : ℤ :=
  if cs.head? = some '-' then -(parseNat base cs.tail : ℤ) else parseNat base cs

lemma numeral_natCast (base n : ℕ) : numeral base n = Nat.toDigits base n := rfl

lemma numeral_neg (base : ℕ) {n : ℕ} (hn : 0 < n) : numeral base (-(n : ℤ)) = '-' :: Nat.toDigits base n := by
  rw [numeral, if_pos (by omega), Int.natAbs_neg, Int.natAbs_natCast, singleton_append]

/-- The letters of the hexadecimal digits, as they are or as capitals. -/
structure Letters (digits : List Char) (up : Char → Char) : Prop where
  getD : ∀ k < 16, digits.getD k '0' = up (Nat.digitChar k)
  lower : ∀ k < 16, (up (Nat.digitChar k)).toLower = Nat.digitChar k
  minus : up '-' = '-'

lemma Kernel.letters : Letters Kernel.digits id := ⟨by decide, by decide, rfl⟩

lemma User.letters : Letters User.digits Char.toUpper := ⟨by decide, by decide, by decide⟩

lemma idxOf_digitChar : ∀ k < 16, Kernel.digits.idxOf (Nat.digitChar k) = k := by decide

section

variable {base : ℕ} {digits : List Char} {up : Char → Char} (hb : 1 < base ∧ base ≤ 16) (hl : Letters digits up)

include hb hl

lemma toDigits_spec (x : ℕ) : parseNat base ((Nat.toDigits base x).map up) = x ∧
    ∀ c ∈ Nat.toDigits base x, (up c).toLower = c ∧ c ≠ '-' := by
  have hchar : ∀ k < 16, Nat.digitChar k ≠ '-' := by decide
  induction x using Nat.strongRecOn with
  | ind x ih =>
    rw [Nat.toDigits_eq_if hb.1]
    split_ifs with h
    · have hx : x < 16 := by omega
      simp [parseNat, hl.lower x hx, idxOf_digitChar x hx, hchar x hx]
    · have hmod : x % base < 16 := (Nat.mod_lt x (by omega)).trans_le hb.2
      obtain ⟨hval, hmem⟩ := ih _ (Nat.div_lt_self (by omega) hb.1)
      refine ⟨?_, forall_mem_append.mpr ⟨hmem, forall_mem_singleton.mpr ⟨hl.lower _ hmod, hchar _ hmod⟩⟩⟩
      rw [map_append, map_singleton, parseNat, foldl_append, ← parseNat, hval, foldl_cons, foldl_nil, hl.lower _ hmod,
        idxOf_digitChar _ hmod, Nat.div_add_mod]

lemma parse_numeral (z : ℤ) : parse base ((numeral base z).map up) = z := by
  obtain ⟨hval, hmem⟩ := toDigits_spec hb hl z.natAbs
  rw [numeral, parse]
  split_ifs with hz h h
  · rw [singleton_append, map_cons, tail_cons, hval]
    omega
  · simp [hl.minus] at h
  · obtain ⟨c, hc, hminus⟩ := mem_map.mp (mem_of_head? h)
    obtain ⟨hlow, hne⟩ := hmem c hc
    rw [hminus] at hlow
    exact absurd hlow.symm hne
  · rw [nil_append, hval]
    omega

lemma lower_numeral (z : ℤ) : ((numeral base z).map up).map Char.toLower = numeral base z := by
  have hmem : ∀ c ∈ numeral base z, (up c).toLower = c := by
    refine forall_mem_append.mpr ⟨?_, fun c hc => ((toDigits_spec hb hl z.natAbs).2 c hc).1⟩
    split_ifs <;> simp [hl.minus]
  rw [map_map]
  exact (map_congr_left hmem).trans (map_id _)

lemma putDigits_eq (room x : ℕ) : putDigits digits base room x =
    if (Nat.toDigits base x).length ≤ room then some ((Nat.toDigits base x).map up).reverse else none := by
  induction room generalizing x with
  | zero =>
    rw [if_neg (Nat.not_le.mpr Nat.length_toDigits_pos)]
    rfl
  | succ room ih =>
    rw [putDigits, Nat.toDigits_eq_if hb.1, hl.getD _ ((Nat.mod_lt x (by omega)).trans_le hb.2)]
    by_cases h : x < base
    · rw [if_pos (Nat.div_eq_of_lt h), if_pos h, if_pos (by simp), Nat.mod_eq_of_lt h]
      rfl
    · have hne : x / base ≠ 0 := (Nat.div_pos (Nat.not_lt.mp h) (by omega)).ne'
      rw [if_neg hne, if_neg h, ih, length_append, length_singleton]
      by_cases hroom : (Nat.toDigits base (x / base)).length ≤ room
      · rw [if_pos hroom, if_pos (Nat.succ_le_succ hroom)]
        simp
      · rw [if_neg hroom, if_neg fun h' => hroom (Nat.le_of_succ_le_succ h')]
        rfl

lemma printintWith_eq {w : ℕ} (xx : BitVec w) (sign : Bool) {z : ℤ} (hz : (if sign then xx.toInt else xx.toNat) = z) :
    printintWith digits xx base sign =
      if (numeral base z).length ≤ BUF_SIZE then some ((numeral base z).map up) else none := by
  rw [printintWith]
  simp only [putDigits_eq hb hl]
  by_cases hneg : sign = true ∧ xx.msb = true
  · have hge := BitVec.msb_eq_true_iff_two_mul_ge.mp hneg.2
    have hpos := Nat.two_pow_pos w
    have hlt := xx.isLt
    have hn : (-xx).toNat = 2 ^ w - xx.toNat := by
      rw [BitVec.toNat_neg, Nat.mod_eq_of_lt (by omega)]
    have hz' : z = -((-xx).toNat : ℤ) := by
      rw [← hz, if_pos hneg.1, BitVec.toInt_eq_msb_cond, if_pos hneg.2, hn]
      omega
    rw [hz', numeral_neg base (by omega), hneg.1, hneg.2, length_cons]
    simp only [Bool.and_self, if_true]
    generalize (-xx).toNat = n
    by_cases hroom : (Nat.toDigits base n).length < BUF_SIZE
    · rw [if_pos hroom.le, if_pos (Nat.succ_le_of_lt hroom)]
      simp [hroom, hl.minus]
    · rw [if_neg fun h => hroom (Nat.lt_of_succ_le h)]
      split_ifs <;> simp [hroom]
  · have hz' : z = (xx.toNat : ℤ) := by
      rw [← hz]
      split_ifs with hs
      · rw [BitVec.toInt_eq_msb_cond, if_neg fun h => hneg ⟨hs, h⟩]
      · rfl
    have hand : (sign && xx.msb) = false := by
      rw [← Bool.not_eq_true, Bool.and_eq_true]
      exact hneg
    rw [hz', numeral_natCast, hand]
    simp only [Bool.false_eq_true, if_false]
    split_ifs <;> simp

end

/-! ### The integer conversions -/

inductive Width where
  | int | long | longLong

inductive Form where
  | d | u | x
  deriving DecidableEq

def Width.ls : Width → ℕ
  | .int => 0
  | .long => 1
  | .longLong => 2

def Width.isLong (w : Width) : Bool := w.ls ≠ 0

def Form.char : Form → Char
  | .d => 'd'
  | .u => 'u'
  | .x => 'x'

def Form.base (f : Form) : ℕ := if f = .x then 16 else 10

def Form.sign (f : Form) : Bool := f = .d

/-- `%d` to `%llx`. -/
def text (w : Width) (f : Form) : List Char := '%' :: (replicate w.ls 'l' ++ [f.char])

/-- The number of `n` bits, with the signedness of the conversion. -/
def Form.number {n : ℕ} (f : Form) (a : BitVec n) : ℤ := if f.sign then a.toInt else a.toNat

/-- The argument, with the width and the signedness of the conversion. -/
def value (w : Width) (f : Form) (a : Word) : ℤ := if w.isLong then f.number a else f.number (a.setWidth 32)

section

variable (str : Word → List Char) (w : Width) (f : Form) (a : Word) (rest : List Char) (ap : List Word)

lemma Form.base_bounds : 10 ≤ f.base ∧ 1 < f.base ∧ f.base ≤ 16 := by cases f <;> decide

/-! ### The kernel -/

namespace Kernel

lemma printf_text : printf str (text w f ++ rest) (a :: ap) =
    (printint w.isLong a f.base f.sign).bind fun out => (printf str rest ap).map (out ++ ·) := by
  have hstep : printf str (text w f ++ rest) (a :: ap) =
      ((printint w.isLong a f.base f.sign).map (·, ap)).bind fun r => (printf str rest r.2).map (r.1 ++ ·) := by
    cases w <;> cases f <;> rfl
  rw [hstep, Option.bind_map]
  rfl

/-- An unsigned `int` has its sign bit clear. -/
def Clear : Prop := w.isLong = false → f ≠ .d → (a.setWidth 32).msb = false

/-- The numeral has a place in the buffer. -/
def Fits : Prop := (numeral f.base (value w f a)).length ≤ BUF_SIZE ∧ Clear w f a

variable {w f a}

lemma number_eq (h : Clear w f a) : f.number (vaArg w.isLong a) = value w f a := by
  cases hw : w.isLong with
  | true => rw [value, hw]; rfl
  | false =>
    rw [value, hw, vaArg, if_neg Bool.false_ne_true, if_neg Bool.false_ne_true, Form.number, Form.number]
    by_cases hf : f = .d
    · have hs : f.sign = true := decide_eq_true hf
      rw [if_pos hs, if_pos hs, BitVec.toInt_signExtend_of_le (by decide)]
    · have hs : ¬ f.sign = true := by simpa [Form.sign] using hf
      rw [if_neg hs, if_neg hs, BitVec.signExtend_eq_setWidth_of_msb_false (h hw hf),
        BitVec.toNat_setWidth_of_le (by decide)]

lemma number_ne (h : ¬ Clear w f a) : f.number (vaArg w.isLong a) ≠ value w f a := by
  simp only [Clear, not_forall, Bool.not_eq_false] at h
  obtain ⟨hw, hf, hmsb⟩ := h
  have hs : ¬ f.sign = true := by simpa [Form.sign] using hf
  rw [value, hw, vaArg, if_neg Bool.false_ne_true, if_neg Bool.false_ne_true, Form.number, Form.number,
    if_neg hs, if_neg hs, BitVec.toNat_signExtend, hmsb, if_pos rfl, BitVec.toNat_setWidth_of_le (by decide)]
  omega

lemma printint_eq : printint w.isLong a f.base f.sign =
    let n := numeral f.base (f.number (vaArg w.isLong a))
    if n.length ≤ BUF_SIZE then some n else none := by
  have h := printintWith_eq f.base_bounds.2 letters (vaArg w.isLong a) f.sign rfl
  rwa [map_id] at h

lemma printf_fits (h : Fits w f a) : printf str (text w f ++ rest) (a :: ap) =
    (printf str rest ap).map (numeral f.base (value w f a) ++ ·) := by
  rw [printf_text, printint_eq, number_eq h.2]
  exact congrArg (Option.bind · _) (if_pos h.1)

/-- **The kernel's `printf` prints a number exactly if it fits.**  For every conversion from `%d` to `%llx` and every
argument, the characters printed before those of the rest of the format are the numeral of its value exactly if that
numeral has at most 16 characters and, for an unsigned `int`, the sign bit is clear (or the rest overruns the buffer). -/
theorem kernel_printf_integers (w : Width) (f : Form) (a : Word) (rest : List Char) (ap : List Word) :
    (printf str (text w f ++ rest) (a :: ap) =
        (printf str rest ap).map (numeral f.base (value w f a) ++ ·) ↔
      Fits w f a ∨ printf str rest ap = none) ∧
      parse f.base (numeral f.base (value w f a)) = value w f a := by
  have hparse : ∀ z, parse f.base (numeral f.base z) = z := fun z => by
    have := parse_numeral f.base_bounds.2 letters z
    rwa [map_id] at this
  refine ⟨⟨fun h => ?_, ?_⟩, hparse _⟩
  · rw [printf_text, printint_eq] at h
    cases hrest : printf str rest ap with
    | none => exact .inr rfl
    | some out =>
      rw [hrest] at h
      obtain ⟨n, hn, hout⟩ := Option.bind_eq_some_iff.mp h
      obtain ⟨hlen, hsome⟩ := Option.ite_none_right_eq_some.mp hn
      obtain rfl := Option.some.inj hsome
      have hnum := append_cancel_right (Option.some.inj hout)
      by_cases hclear : Clear w f a
      · exact .inl ⟨hnum ▸ hlen, hclear⟩
      · refine absurd ?_ (number_ne hclear)
        rw [← hparse (f.number _), hnum, hparse]
  · rintro (h | h)
    · exact printf_fits str rest ap h
    · rw [printf_text, h]
      cases printint w.isLong a f.base f.sign <;> rfl

/-- The sign bit of an `int` is extended for `%x`; `%u` of it and `%ld` of a long number overrun the buffer. -/
theorem kernel_printf_wrong : printf (fun _ => []) (text .int .x) [2 ^ 31] = some (numeral 16 (2 ^ 64 - 2 ^ 31)) ∧
    printf (fun _ => []) (text .int .u) [2 ^ 31] = none ∧
    printf (fun _ => []) (text .long .d) [10 ^ 16] = none := by
  decide +kernel

end Kernel

/-! ### The user library -/

namespace User

lemma vprintf_text : vprintf str (text w f ++ rest) (a :: ap) =
    (printint w.isLong a f.base f.sign).bind fun out => (vprintf str rest ap).map (out ++ ·) := by
  have hstep : vprintf str (text w f ++ rest) (a :: ap) =
      ((printint w.isLong a f.base f.sign).map (·, ap)).bind fun r => (vprintf str rest r.2).map (r.1 ++ ·) := by
    cases w <;> cases f <;> rfl
  rw [hstep, Option.bind_map]
  rfl

lemma length_numeral_le {z : ℤ} (hz : z.natAbs < 10 ^ 10) : (numeral f.base z).length ≤ BUF_SIZE := by
  have hlen := (Nat.length_toDigits_le_iff f.base_bounds.2.1 (by decide : 0 < 10)).mpr
    (hz.trans_le (Nat.pow_le_pow_left f.base_bounds.1 10))
  rw [numeral, length_append]
  split_ifs <;> simp [BUF_SIZE] <;> omega

lemma printint_eq (long : Bool) : printint long a f.base f.sign =
    some ((numeral f.base (value .int f a)).map Char.toUpper) := by
  have h := printintWith_eq f.base_bounds.2 letters (a.setWidth 32) f.sign rfl
  refine h.trans (if_pos (length_numeral_le f ?_))
  have hlt := (a.setWidth 32).isLt
  have hint := (a.setWidth 32).toInt_lt
  have hint' := (a.setWidth 32).le_toInt
  split_ifs <;> omega

lemma foldl_nibbles {digits : List Char} {up : Char → Char} (hl : Letters digits up) (n : ℕ) (hn : n ≤ 16) (x : Word)
    (v : ℕ) : (nibbles digits n x).foldl (fun v c => 16 * v + Kernel.digits.idxOf c.toLower) v =
      v * 16 ^ n + x.toNat / 16 ^ (16 - n) := by
  induction n generalizing x v with
  | zero => simp [nibbles, Nat.div_eq_of_lt x.isLt]
  | succ n ih =>
    have htop : (x >>> 60).toNat = x.toNat / 16 ^ 15 := by
      rw [BitVec.toNat_ushiftRight, Nat.shiftRight_eq_div_pow]
      norm_num
    have hshift : (x <<< 4).toNat = 16 * (x.toNat % 16 ^ 15) := by
      rw [BitVec.toNat_shiftLeft, Nat.shiftLeft_eq]
      omega
    have hdigit : x.toNat / 16 ^ 15 < 16 := by omega
    obtain ⟨m, hm⟩ : ∃ m, 15 = n + m := ⟨15 - n, by omega⟩
    rw [nibbles, foldl_cons, ih (by omega), htop, hshift, hl.getD _ hdigit, hl.lower _ hdigit, idxOf_digitChar _ hdigit,
      show 16 - n = m + 1 by omega, show 16 - (n + 1) = m by omega, Nat.pow_succ 16 m, Nat.mul_comm (16 ^ m) 16,
      Nat.mul_div_mul_left _ _ (by decide)]
    -- the digits taken later are those of the remainder
    have hsplit : x.toNat / 16 ^ m = 16 ^ n * (x.toNat / 16 ^ 15) + x.toNat % 16 ^ 15 / 16 ^ m := by
      conv_lhs => rw [← Nat.div_add_mod x.toNat (16 ^ 15)]
      rw [hm, Nat.pow_add, Nat.mul_comm (16 ^ n) (16 ^ m), Nat.mul_assoc, Nat.mul_add_div (Nat.pow_pos (by decide))]
    rw [hsplit]
    ring

lemma lower_nibbles (n : ℕ) (x : Word) : (nibbles digits n x).map Char.toLower = nibbles Kernel.digits n x := by
  have hdigit : ∀ k < 16, (digits.getD k '0').toLower = Kernel.digits.getD k '0' := by decide
  induction n generalizing x with
  | zero => rfl
  | succ n ih =>
    have htop : (x >>> 60).toNat < 16 := by
      rw [BitVec.toNat_ushiftRight, Nat.shiftRight_eq_div_pow]
      omega
    rw [nibbles, nibbles, map_cons, ih, hdigit _ htop]

/-- **The library's `printf` prints the low 32 bits.**  For every conversion from `%d` to `%llx` it prints the numeral
of the low 32 bits of the argument; that is the numeral of the value exactly if the value has 32 bits.  `%p` prints
the 16 digits of the address. -/
theorem user_vprintf_integers (w : Width) (f : Form) (a : Word) (rest : List Char) (ap : List Word) :
    vprintf str (text w f ++ rest) (a :: ap) =
        (vprintf str rest ap).map ((numeral f.base (value .int f a)).map Char.toUpper ++ ·) ∧
      (parse f.base ((numeral f.base (value .int f a)).map Char.toUpper) = value w f a ↔ value .int f a = value w f a) ∧
      (value .int f a = value w f a → Kernel.Fits w f a → Kernel.printf str (text w f ++ rest) (a :: ap) =
        (Kernel.printf str rest ap).map (((numeral f.base (value .int f a)).map Char.toUpper).map Char.toLower ++ ·)) ∧
      vprintf str ('%' :: 'p' :: rest) (a :: ap) =
        (vprintf str rest ap).map ('0' :: 'x' :: nibbles digits 16 a ++ ·) ∧
      Kernel.printf str ('%' :: 'p' :: rest) (a :: ap) =
        (Kernel.printf str rest ap).map ('0' :: 'x' :: (nibbles digits 16 a).map Char.toLower ++ ·) ∧
      parseNat 16 (nibbles digits 16 a) = a.toNat := by
  refine ⟨?_, ?_, fun heq hfits => ?_, rfl, ?_, ?_⟩
  · rw [vprintf_text, printint_eq]
    rfl
  · rw [parse_numeral f.base_bounds.2 letters]
  · rw [lower_numeral f.base_bounds.2 letters, heq, Kernel.printf_fits str rest ap hfits]
  · rw [lower_nibbles]
    rfl
  · have := foldl_nibbles letters 16 le_rfl a 0
    simpa [parseNat] using this

/-- `%lx` of two to the 32nd prints `0`. -/
theorem user_vprintf_truncates : vprintf (fun _ => []) (text .long .x) [2 ^ 32] = some ['0'] ∧
    value .long .x (2 ^ 32) = 2 ^ 32 := by
  decide +kernel

end User

end

end Xv6.Printf
