import ClientServerApp.Subscriber.Printing
import ClientServerApp.Server.Delivery

/-! The numbers that the subscriber prints, compared with the numbers that the payloads encode. -/
namespace ClientServerApp.Subscriber
open Words Rounding

section Integers

/-- The payload of an `INT` message: the sign and the magnitude in network byte order. -/
def intPayload (sign : UInt8) (magnitude : UInt32) : List UInt8 := sign :: ByteOrder.big.store32 magnitude

lemma getD_toList {n : ℕ} (data : Buffer n) (i : Fin n) : data.toList.getD i 0 = data.get i := by
  have hi : (i : ℕ) < data.toList.length := by
    rw [List.Vector.toList_length]
    exact i.isLt
  rw [List.getD_eq_getElem?_getD,List.getElem?_eq_getElem hi,Option.getD_some,List.Vector.get_eq_get_toList]
  rfl

/-- The number that the payload encodes. -/
def intValue (sign : UInt8) (magnitude : UInt32) : ℤ := if sign = 0 then magnitude.toNat else -magnitude.toNat

/-- Every message with the payload is printed with the number that it encodes; neither the conversion to
`int` nor the negation leaves the range of `int`. -/
structure DecodedExactly (order : ByteOrder) (sign : UInt8) (magnitude : UInt32) : Prop where
  printed (msg : SrvMsg) : intPayload sign magnitude <+: msg.data.toList →
    printIntMsg order msg = printMsg order msg "INT" (signedDecimal (intValue sign magnitude))
  converted : magnitude.toInt32.toInt = magnitude.toNat
  negated : sign ≠ 0 → ∃ val, negInt magnitude.toInt32 = .ok val ∧ val.toInt = -magnitude.toInt32.toInt

lemma toInt_toInt32 (x : UInt32) : x.toInt32.toInt = if x.toNat < 2^31 then (x.toNat : ℤ) else x.toNat - 2^32 := by
  change x.toBitVec.toInt = _
  rw [BitVec.toInt_eq_toNat_cond]
  change (if 2 * x.toNat < 2^32 then (x.toNat : ℤ) else x.toNat - 2^32) = _
  split_ifs <;> omega

lemma negInt_toInt {val : Int32} (h : val ≠ Int32.minValue) :
    ∃ val', negInt val = .ok val' ∧ val'.toInt = -val.toInt := by
  refine ⟨-val,if_neg h,?_⟩
  have hne : val.toInt ≠ -2^31 := fun he => h (Int32.toInt_inj.mp he)
  have hlow := val.le_toInt
  have hhigh := val.toInt_lt
  rw [Int32.toInt_neg,Int.bmod_eq_of_le] <;> omega

/-- The sign and the magnitude as the host reads them. -/
lemma payload_read (order : ByteOrder) {sign : UInt8} {magnitude : UInt32} {msg : SrvMsg}
    (h : intPayload sign magnitude <+: msg.data.toList) :
    msg.data.get 0 = sign ∧ dataMagnitude order msg = magnitude := by
  obtain ⟨rest,hdata⟩ := h
  have hsign : msg.data.toList[0]? = some sign := by
    rw [← hdata]
    rfl
  have hslice : (msg.data.slice 1 4 (by decide)).toList = ByteOrder.big.store32 magnitude := by
    rw [Buffer.slice_toList,← hdata]
    exact List.take_left' (ByteOrder.big.store32_length magnitude)
  constructor
  · rw [List.Vector.get_eq_get_toList,List.get_eq_getElem]
    exact (List.getElem_eq_iff _).mpr hsign
  · rw [dataMagnitude,Server.ntohl_load32 order (List.Vector.toList_length _),hslice]
    exact ByteOrder.big.load32_store32 magnitude

lemma signedDecimal_injective : Function.Injective signedDecimal := by
  have hminus : ∀ n, chr '-' ∉ decimal n := not_mem_decimal (by decide)
  intro a b h
  unfold signedDecimal at h
  split_ifs at h with ha hb hb
  · have := decimal_injective (List.append_cancel_left h)
    omega
  · exact absurd (h ▸ List.mem_append_left _ (by decide) : chr '-' ∈ [] ++ decimal b.natAbs) (hminus _)
  · exact absurd (h.symm ▸ List.mem_append_left _ (by decide) : chr '-' ∈ [] ++ decimal a.natAbs) (hminus _)
  · have := decimal_injective (List.append_cancel_left h)
    omega

/-- The value can be told from the line. -/
lemma printMsg_injective (order : ByteOrder) {msg : SrvMsg} (htopic : 0 ∈ msg.topic.toList) {kind : String}
    {value value' : List UInt8} (h : printMsg order msg kind value = printMsg order msg kind value') :
    value = value' := by
  rw [printMsg_ok (readString_ok htopic),printMsg_ok (readString_ok htopic)] at h
  have hline := List.append_cancel_left (Except.ok.inj h)
  simp only [List.append_assoc] at hline
  exact List.append_cancel_right (List.append_cancel_left (List.append_cancel_left (List.append_cancel_left
    (List.append_cancel_left hline))))

/-- A message with the payload and an empty topic. -/
def carrying (payload : List UInt8) : SrvMsg :=
  ⟨intSrvMsg,0,0,Buffer.zeroed _,(Buffer.zeroed _).overwrite payload⟩

lemma carrying_data {payload : List UInt8} (h : payload.length ≤ maxDataSize+1) :
    payload <+: (carrying payload).data.toList := by
  change payload <+: ((Buffer.zeroed _).overwrite payload).toList
  rw [Buffer.overwrite_toList _ h]
  exact List.prefix_append _ _

lemma printIntMsg_eq (order : ByteOrder) {sign : UInt8} {magnitude : UInt32} {msg : SrvMsg}
    (h : intPayload sign magnitude <+: msg.data.toList) :
    printIntMsg order msg = (if sign = 0 then pure magnitude.toInt32 else negInt magnitude.toInt32) >>= fun val =>
      printMsg order msg "INT" (signedDecimal val.toInt) := by
  obtain ⟨hsign,hmagnitude⟩ := payload_read order h
  rw [printIntMsg,hsign,hmagnitude]

/-- An integer that `print_int_msg` cannot negate: a sign and the magnitude 2^31. -/
def Unnegatable (data : Buffer (maxDataSize+1)) : Prop :=
  data.head ≠ 0 ∧ intPayload data.head 0x80000000 <+: data.toList

instance (data : Buffer (maxDataSize+1)) : Decidable (Unnegatable data) := inferInstanceAs (Decidable (_ ∧ _))

lemma unnegatable_iff {data : Buffer (maxDataSize+1)} :
    Unnegatable data ↔ data.get 0 ≠ 0 ∧ intPayload (data.get 0) 0x80000000 <+: data.toList := by
  rw [Unnegatable,List.Vector.get_zero]

/-- The number that `print_int_msg` shows: what is above the range of `int` is off by 2^32. -/
def intShown (sign : UInt8) (magnitude : UInt32) : ℤ :=
  if magnitude.toNat < 2^31 then intValue sign magnitude
  else if sign = 0 then magnitude.toNat - 2^32 else 2^32 - magnitude.toNat

lemma toInt32_eq_minValue {x : UInt32} : x.toInt32 = Int32.minValue ↔ x = 0x80000000 := by
  rw [← Int32.toInt_inj,toInt_toInt32,Int32.toInt_minValue,← UInt32.toNat_inj]
  change _ ↔ x.toNat = 2^31
  split_ifs <;> omega

/-- Some integer is in the first five bytes. -/
lemma exists_intPayload (data : Buffer (maxDataSize+1)) :
    ∃ magnitude, intPayload (data.get 0) magnitude <+: data.toList := by
  have hlen : 5 ≤ data.toList.length := by
    rw [List.Vector.toList_length]
    decide
  obtain ⟨sign,rest,hdata⟩ := List.exists_cons_of_length_pos (show 0 < data.toList.length by omega)
  have hsign : data.get 0 = sign := by
    rw [← getD_toList,hdata]
    rfl
  rw [hdata,List.length_cons] at hlen
  have hfour : (rest.take 4).length = 4 := by
    rw [List.length_take]
    omega
  refine ⟨ByteOrder.big.load32 (rest.take 4),?_⟩
  rw [hsign,hdata,intPayload,ByteOrder.big.store32_load32 hfour]
  exact List.prefix_cons_inj sign |>.mpr (List.take_prefix 4 rest)

/-- The value that is printed, unless the negation overflows. -/
lemma printIntMsg_shown (order : ByteOrder) {magnitude : UInt32} {msg : SrvMsg}
    (h : intPayload (msg.data.get 0) magnitude <+: msg.data.toList) (hneg : ¬ Unnegatable msg.data) :
    printIntMsg order msg = printMsg order msg "INT" (signedDecimal (intShown (msg.data.get 0) magnitude)) := by
  have hval := toInt_toInt32 magnitude
  rw [printIntMsg_eq order h]
  split_ifs with hsign
  · have hshown : intShown (msg.data.get 0) magnitude = magnitude.toInt32.toInt := by
      rw [hval,intShown,intValue,if_pos hsign,if_pos hsign]
    rw [hshown]
    rfl
  · have hmin : magnitude.toInt32 ≠ Int32.minValue := fun he =>
      hneg (unnegatable_iff.mpr ⟨hsign,toInt32_eq_minValue.mp he ▸ h⟩)
    obtain ⟨val,hneg,hval'⟩ := negInt_toInt hmin
    have hshown : intShown (msg.data.get 0) magnitude = val.toInt := by
      rw [hval',hval,intShown,intValue,if_neg hsign,if_neg hsign]
      split_ifs <;> omega
    rw [hneg,hshown]
    rfl

lemma printIntMsg_undefined (order : ByteOrder) {msg : SrvMsg} (h : Unnegatable msg.data) :
    printIntMsg order msg = .error .undefined := by
  have hmin : negInt (0x80000000 : UInt32).toInt32 = .error .undefined := by decide
  obtain ⟨hsign,hpayload⟩ := unnegatable_iff.mp h
  rw [printIntMsg_eq order hpayload,if_neg hsign,hmin]
  rfl

/-- A magnitude in the range of `int` is printed with its sign. -/
lemma printIntMsg_small (order : ByteOrder) {sign : UInt8} {magnitude : UInt32} {msg : SrvMsg}
    (h : intPayload sign magnitude <+: msg.data.toList) (hsmall : magnitude.toNat < 2^31) :
    printIntMsg order msg = printMsg order msg "INT" (signedDecimal (intValue sign magnitude)) := by
  obtain ⟨rfl,hmagnitude⟩ := payload_read order h
  have hneg : ¬ Unnegatable msg.data := by
    intro hneg
    rw [← hmagnitude,(payload_read order hneg.2).2] at hsmall
    exact absurd hsmall (by decide)
  rw [printIntMsg_shown order h hneg,intShown,if_pos hsmall]

/-- A larger one is printed with another number, or not at all. -/
lemma printIntMsg_large (order : ByteOrder) {sign : UInt8} {magnitude : UInt32} {msg : SrvMsg}
    (h : intPayload sign magnitude <+: msg.data.toList) (htopic : 0 ∈ msg.topic.toList)
    (hlarge : 2^31 ≤ magnitude.toNat) :
    printIntMsg order msg ≠ printMsg order msg "INT" (signedDecimal (intValue sign magnitude)) := by
  obtain ⟨rfl,-⟩ := payload_read order h
  intro hline
  by_cases hneg : Unnegatable msg.data
  · rw [printIntMsg_undefined order hneg,printMsg_ok (readString_ok htopic)] at hline
    cases hline
  · rw [printIntMsg_shown order h hneg] at hline
    have hvalue := signedDecimal_injective (printMsg_injective order htopic hline)
    rw [intShown,if_neg (not_lt.mpr hlarge),intValue] at hvalue
    split_ifs at hvalue <;> omega

/-- An integer payload is decoded without overflow exactly when its magnitude is in the range of `int`. -/
theorem int_decodedExactly_iff (order : ByteOrder) (sign : UInt8) (magnitude : UInt32) :
    DecodedExactly order sign magnitude ↔ magnitude.toNat < 2^31 := by
  constructor
  · intro h
    by_contra hlarge
    have hdata : intPayload sign magnitude <+: (carrying (intPayload sign magnitude)).data.toList := by
      apply carrying_data
      simp [intPayload]
    exact printIntMsg_large order hdata (by simp [carrying]) (not_lt.mp hlarge) (h.printed _ hdata)
  · intro hsmall
    have hval := toInt_toInt32 magnitude
    rw [if_pos hsmall] at hval
    refine ⟨fun msg hdata => printIntMsg_small order hdata hsmall,hval,fun _ => negInt_toInt fun he => ?_⟩
    rw [he,Int32.toInt_minValue] at hval
    omega

/-- The first magnitude outside the range is printed as the least `int`. -/
theorem int_decoded_wraps : ¬ DecodedExactly .little 0 2147483648 := by
  intro h
  have hdata : intPayload 0 2147483648 <+: (carrying (intPayload 0 2147483648)).data.toList := by
    apply carrying_data
    simp [intPayload]
  have hwrapped : printIntMsg .little (carrying (intPayload 0 2147483648)) =
      printMsg .little (carrying (intPayload 0 2147483648)) "INT" (signedDecimal (-2147483648)) := by
    rw [printIntMsg_eq .little hdata]
    rfl
  have hvalue := printMsg_injective .little (by simp [carrying]) (hwrapped.symm.trans (h.printed _ hdata))
  revert hvalue
  decide +kernel

end Integers

section Fractions

/-- The text is a decimal numeral with the given number of decimals, and the number is what it stands for. -/
def IsNumeral (decimals : ℕ) (text : List UInt8) (q : ℚ) : Prop :=
  ∃ (negative : Bool) (whole fraction : List UInt8), text =
    (if negative then chars "-" else []) ++ whole ++ chars "." ++ fraction ∧
    whole ≠ [] ∧ (∀ c ∈ whole ++ fraction, chr '0' ≤ c ∧ c ≤ chr '9') ∧ fraction.length = decimals ∧
    q = (if negative then -1 else 1) * (numeralValue (whole ++ fraction) / 10^decimals)

/-- The nearest number with the given number of decimals. -/
def rounded (decimals : ℕ) (x : Double) : ℚ :=
  (if x.negative then -1 else 1) * (roundHalfEven (x.magnitude * 10^decimals) / 10^decimals)

/-- The number that the payload of a `SHORT_REAL` message encodes. -/
def shortRealValue (data : Buffer (maxDataSize+1)) : ℚ := word (data.toList.take 2) / 100

/-- The number that the payload of a `FLOAT` message encodes, with its sign apart. -/
def floatValue (data : Buffer (maxDataSize+1)) : Double :=
  ⟨data.toList.getD 0 0 ≠ 0,word ((data.toList.drop 1).take 4) / 10^(data.toList.getD 5 0).toNat⟩

/-- The line that is printed for the message shows a numeral of the number as its value. -/
def ShowsNumeral (print : ByteOrder → SrvMsg → Outcome (List UInt8)) (kind : String) (decimals : ℕ)
    (order : ByteOrder) (msg : SrvMsg) (q : ℚ) : Prop :=
  ∃ line value, print order msg = .ok line ∧ printMsg order msg kind value = .ok line ∧ IsNumeral decimals value q

/-- A numeral has one point. -/
lemma IsNumeral.count_point {decimals : ℕ} {text : List UInt8} {q : ℚ} (h : IsNumeral decimals text q) :
    text.count (chr '.') = 1 := by
  obtain ⟨negative,whole,fraction,rfl,-,hdigits,-,-⟩ := h
  have hpoint : ∀ l : List UInt8, (∀ c ∈ l, chr '0' ≤ c ∧ c ≤ chr '9') → l.count (chr '.') = 0 := by
    intro l hl
    refine List.count_eq_zero.mpr fun hmem => ?_
    exact absurd (hl _ hmem) (by decide)
  have hsign : (if negative then chars "-" else []).count (chr '.') = 0 := by
    cases negative <;> decide
  rw [List.count_append,List.count_append,List.count_append,hsign,
    hpoint whole fun c hc => hdigits c (List.mem_append_left _ hc),
    hpoint fraction fun c hc => hdigits c (List.mem_append_right _ hc)]
  decide

lemma numeralValue_append (a b : List UInt8) :
    numeralValue (a ++ b) = b.foldl (fun acc c => 10*acc + (c.toNat - (chr '0').toNat)) (numeralValue a) :=
  List.foldl_append

/-- The digits behind a numeral multiply it by a power of ten. -/
lemma foldl_digits (b : List UInt8) (acc : ℕ) :
    b.foldl (fun acc c => 10*acc + (c.toNat - (chr '0').toNat)) acc = acc * 10^b.length + numeralValue b := by
  induction b generalizing acc with
  | nil => simp [numeralValue]
  | cons c b ih =>
    have hc := ih (10*0 + (c.toNat - (chr '0').toNat))
    rw [numeralValue,List.foldl_cons,List.foldl_cons,hc,ih,List.length_cons,pow_succ]
    ring

lemma numeralValue_paddedDecimal (width n : ℕ) : numeralValue (paddedDecimal width n) = n := by
  have hzeros : ∀ k, numeralValue (List.replicate k (chr '0')) = 0 := by
    intro k
    induction k with
    | zero => rfl
    | succ k ih =>
      rw [List.replicate_succ]
      exact ih
  rw [paddedDecimal,numeralValue_append,hzeros]
  exact numeralValue_decimal n

lemma paddedDecimal_length {width n : ℕ} (hwidth : 0 < width) (h : n < 10^width) :
    (paddedDecimal width n).length = width := by
  have hle : (decimal n).length ≤ width := by
    rw [decimal_eq,List.length_map]
    exact (Nat.length_toDigits_le_iff (by decide) hwidth).mpr h
  rw [paddedDecimal,List.length_append,List.length_replicate]
  omega

/-- `%f` prints a numeral of the rounded number. -/
theorem fixedDecimal_isNumeral {decimals : ℕ} (h : 0 < decimals) (x : Double) :
    IsNumeral decimals (fixedDecimal decimals x) (rounded decimals x) := by
  let scaled := roundHalfEven (x.magnitude * 10^decimals)
  have hrest : scaled % 10^decimals < 10^decimals := Nat.mod_lt _ (by positivity)
  have hlength := paddedDecimal_length h hrest
  refine ⟨x.negative,decimal (scaled / 10^decimals),paddedDecimal decimals (scaled % 10^decimals),
    rfl,?_,?_,hlength,?_⟩
  · rw [decimal_eq,Ne,List.map_eq_nil_iff]
    exact Nat.toDigits_ne_nil
  · intro c hc
    rcases List.mem_append.mp hc with hc | hc
    · exact digit_of_mem_decimal hc
    · rcases List.mem_append.mp hc with hc | hc
      · obtain rfl := List.eq_of_mem_replicate hc
        decide
      · exact digit_of_mem_decimal hc
  · have hvalue : numeralValue (decimal (scaled / 10^decimals) ++ paddedDecimal decimals (scaled % 10^decimals)) =
        scaled := by
      rw [numeralValue_append,foldl_digits,hlength,numeralValue_decimal,numeralValue_paddedDecimal]
      exact Nat.div_add_mod' scaled (10^decimals)
    rw [hvalue]
    rfl

lemma load16_toNat {l : List UInt8} (h : l.length = 2) : (ByteOrder.big.load16 l).toNat = word l := by
  have hlt := word_lt l
  rw [h] at hlt
  exact UInt16.toNat_ofNat_of_lt' hlt

lemma load32_toNat {l : List UInt8} (h : l.length = 4) : (ByteOrder.big.load32 l).toNat = word l := by
  have hlt := word_lt l
  rw [h] at hlt
  exact UInt32.toNat_ofNat_of_lt' hlt

section Doubles
variable (round : ℚ → ℚ) (data : Buffer (maxDataSize+1))

/-- The double that `print_short_real_msg` prints. -/
def shortRealDouble : Double := (Double.ofNat (word (data.toList.take 2))).div round 100

/-- The double that `print_float_msg` prints. -/
def floatDouble : Double := (fun val : Double => val.div round 10)^[(data.toList.getD 5 0).toNat]
  ⟨data.toList.getD 0 0 ≠ 0,word ((data.toList.drop 1).take 4)⟩

variable {data}

/-- A hundredth has no more than the printed six decimals. -/
lemma shortReal_exact : rounded 6 (shortRealDouble binary64 data) = shortRealValue data := by
  let n := word (data.toList.take 2)
  have hlength : (data.toList.take 2).length = 2 := by
    rw [List.length_take,List.Vector.toList_length]
    rfl
  have hquotient : (0 : ℚ) ≤ n / (100 : ℕ) := by positivity
  have herror : |binary64 (n / (100 : ℕ)) - n / (100 : ℕ)| ≤ 2^((10 : ℤ)-54) := by
    refine abs_binary64_sub_le hquotient (by decide) ?_
    have hlt : n < 256^2 := hlength ▸ word_lt (data.toList.take 2)
    rw [div_lt_iff₀ (by norm_num)]
    norm_num
    omega
  have hround : roundHalfEven (binary64 (n / (100 : ℕ)) * 10^6) = n * 10^4 := by
    refine roundHalfEven_eq (mul_nonneg (binary64_nonneg _) (by norm_num)) ?_
    have hscaled : binary64 (n / (100 : ℕ)) * 10^6 - (n * 10^4 : ℕ) =
      (binary64 (n / (100 : ℕ)) - n / (100 : ℕ)) * 10^6 := by
      push_cast
      ring
    rw [hscaled,abs_mul]
    norm_num at herror ⊢
    linarith
  simp only [rounded,shortRealDouble,Double.ofNat,Double.div]
  rw [hround,shortRealValue]
  push_cast
  ring

/-- Divisions by ten move a number below 2^32 by less than half a printed decimal. -/
lemma div_near {x : Double} (hx : 0 ≤ x.magnitude) (hlt : x.magnitude < 2^32) (k : ℕ) :
    ((fun val : Double => val.div binary64 10)^[k] x).negative = x.negative ∧
    0 ≤ ((fun val : Double => val.div binary64 10)^[k] x).magnitude ∧
    |((fun val : Double => val.div binary64 10)^[k] x).magnitude - x.magnitude / 10^k| ≤ 2^(-22 : ℤ) := by
  induction k with
  | zero =>
    refine ⟨rfl,hx,?_⟩
    rw [Function.iterate_zero_apply,pow_zero,div_one,sub_self,abs_zero]
    positivity
  | succ k ih =>
    rw [Function.iterate_succ_apply']
    generalize (fun val : Double => val.div binary64 10)^[k] x = y at ih ⊢
    obtain ⟨hnegative,hy,hnear⟩ := ih
    refine ⟨hnegative,binary64_nonneg _,?_⟩
    change |binary64 (y.magnitude / (10 : ℕ)) - x.magnitude / 10^(k+1)| ≤ _
    have hquotient : x.magnitude / 10^k ≤ x.magnitude := div_le_self hx (one_le_pow₀ (by norm_num))
    have hlast : |binary64 (y.magnitude / (10 : ℕ)) - y.magnitude / (10 : ℕ)| ≤ 2^((29 : ℤ)-54) := by
      refine abs_binary64_sub_le (by positivity) (by decide) ?_
      have := (abs_le.mp hnear).2
      norm_num at this hlt ⊢
      linarith
    have hearlier : |y.magnitude / (10 : ℕ) - x.magnitude / 10^(k+1)| ≤ 2^(-22 : ℤ) / 10 := by
      have hsplit : y.magnitude / (10 : ℕ) - x.magnitude / 10^(k+1) = (y.magnitude - x.magnitude / 10^k) / 10 := by
        rw [pow_succ]
        push_cast
        field_simp
      rw [hsplit,abs_div,abs_of_pos (by norm_num : (0 : ℚ) < 10)]
      exact div_le_div_of_nonneg_right hnear (by norm_num)
    have htotal := (abs_sub_le _ _ _).trans (add_le_add hlast hearlier)
    norm_num at htotal ⊢
    linarith

/-- The number of a double. -/
def Double.value (x : Double) : ℚ := (if x.negative then -1 else 1) * x.magnitude

/-- The printed number is off by the rounding to six decimals and the divisions. -/
lemma float_near : |rounded 6 (floatDouble binary64 data) - (floatValue data).value| ≤ 1/10^6 := by
  have hlength : ((data.toList.drop 1).take 4).length = 4 := by
    rw [List.length_take,List.length_drop,List.Vector.toList_length]
    rfl
  have hlt := word_lt ((data.toList.drop 1).take 4)
  rw [hlength] at hlt
  have hcast : (word ((data.toList.drop 1).take 4) : ℚ) < 2^32 := by exact_mod_cast hlt
  obtain ⟨hnegative,hnonneg,hnear⟩ := @div_near ⟨data.toList.getD 0 0 ≠ 0,word ((data.toList.drop 1).take 4)⟩
    (Nat.cast_nonneg _) hcast (data.toList.getD 5 0).toNat
  rw [← floatDouble] at hnegative hnonneg hnear
  have hround := abs_roundHalfEven_sub_le (mul_nonneg hnonneg (by norm_num : (0 : ℚ) ≤ 10^6))
  have hsign : |(if (floatDouble binary64 data).negative then (-1 : ℚ) else 1)| = 1 := by
    split_ifs <;> simp
  have hvalue : (floatValue data).value = (if (floatDouble binary64 data).negative then -1 else 1) *
      (word ((data.toList.drop 1).take 4) / 10^(data.toList.getD 5 0).toNat) := by
    rw [hnegative]
    rfl
  rw [rounded,hvalue,← mul_sub,abs_mul,hsign,one_mul]
  -- half a printed decimal for each of the two
  rw [abs_le] at hround hnear ⊢
  norm_num at hround hnear ⊢
  constructor <;> linarith

end Doubles

section Lines
variable (round : ℚ → ℚ) (order : ByteOrder) (msg : SrvMsg)

lemma shortReal_line : printShortRealMsg round order msg =
    printMsg order msg "SHORT_REAL" (fixedDecimal 6 (shortRealDouble round msg.data) ++ chars ".2") := by
  have hlength : (msg.data.slice 0 2 (by decide)).toList.length = 2 := List.Vector.toList_length _
  rw [printShortRealMsg,Server.ntohs_load16 order hlength,load16_toNat hlength]
  rfl

lemma float_line : printFloatMsg round order msg =
    printMsg order msg "FLOAT" (fixedDecimal 6 (floatDouble round msg.data) ++ chars ".4") := by
  have hlength : (msg.data.slice 1 4 (by decide)).toList.length = 4 := List.Vector.toList_length _
  have hfirst : msg.data.toList.getD 0 0 = msg.data.get 0 := getD_toList msg.data 0
  have hpower : msg.data.toList.getD 5 0 = msg.data.get 5 := getD_toList msg.data 5
  have hstart : (if msg.data.get 0 = 0 then Double.ofNat (dataMagnitude order msg).toNat
      else (Double.ofNat (dataMagnitude order msg).toNat).neg) =
      ⟨msg.data.toList.getD 0 0 ≠ 0,word ((msg.data.toList.drop 1).take 4)⟩ := by
    rw [dataMagnitude,Server.ntohl_load32 order hlength,load32_toNat hlength,hfirst]
    split_ifs with hsign
    · rw [decide_eq_false (not_not.mpr hsign)]
      rfl
    · rw [decide_eq_true hsign]
      rfl
  rw [printFloatMsg,floatDouble,hpower,← hstart]

end Lines

variable {order : ByteOrder} {msg : SrvMsg}

/-- A numeral with a second point behind it is none. -/
lemma not_showsNumeral {print : ByteOrder → SrvMsg → Outcome (List UInt8)} {kind : String} {text : List UInt8}
    {decimals k : ℕ} {q q' : ℚ} {c : Char} (hc : chr c ≠ chr '.') (htext : IsNumeral k text q')
    (hprint : print order msg = printMsg order msg kind (text ++ [chr '.',chr c])) :
    ¬ ShowsNumeral print kind decimals order msg q := by
  rintro ⟨line,value,hline,hvalue,hnumeral⟩
  have htopic : 0 ∈ msg.topic.toList := by
    by_contra hnul
    rw [printMsg,readString,if_neg hnul] at hvalue
    cases hvalue
  have heq := printMsg_injective order htopic (hvalue.trans (hline.symm.trans hprint))
  have hcount := hnumeral.count_point
  rw [heq,List.count_append,htext.count_point,List.count_cons_self,List.count_cons_of_ne hc] at hcount
  simp at hcount

/-- No value of a `SHORT_REAL` or a `FLOAT` message is printed as a numeral with the stated decimals, however the
quotients are rounded. -/
theorem fractions_never_numeral (round : ℚ → ℚ) (order : ByteOrder) (msg : SrvMsg) :
    ¬ ShowsNumeral (printShortRealMsg round) "SHORT_REAL" 2 order msg (shortRealValue msg.data) ∧
    ¬ ShowsNumeral (printFloatMsg round) "FLOAT" 4 order msg (rounded 4 (floatValue msg.data)) :=
  ⟨not_showsNumeral (c := '2') (by decide) (fixedDecimal_isNumeral (by decide) _) (shortReal_line round order msg),
    not_showsNumeral (c := '4') (by decide) (fixedDecimal_isNumeral (by decide) _) (float_line round order msg)⟩

/-- For 123.45 the line ends in `123.450000.2`, even when the quotient is exact. -/
theorem shortReal_twoPoints :
    ¬ ShowsNumeral (printShortRealMsg id) "SHORT_REAL" 2 .little (carrying [0x30,0x39])
      (shortRealValue (carrying [0x30,0x39]).data) := by
  have hnumeral : IsNumeral 6 (chars "123.450000") (12345/100) :=
    ⟨false,chars "123",chars "450000",by decide +kernel,by decide +kernel,by decide +kernel,by decide +kernel,
      by norm_num; decide +kernel⟩
  have hvalue : fixedDecimal 6 ((Double.ofNat 12345).div id 100) ++ chars ".2" =
      chars "123.450000" ++ [chr '.',chr '2'] := by decide +kernel
  exact not_showsNumeral (c := '2') (by decide) hnumeral
    (congrArg (printMsg .little (carrying [0x30,0x39]) "SHORT_REAL") hvalue)

end Fractions

end ClientServerApp.Subscriber
