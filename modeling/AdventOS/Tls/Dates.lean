import AdventOS.Tls.X509

/-!
# Dates in certificates (`libcrypto/x509.c`)

`civil_to_epoch` adds up years from 1970 on and keeps 32 bits of the seconds. Beside it stands the
calendar itself: the days of a month, the days before a year in closed form, and the Unix time
over the integers.

* `daysBefore_sum`: the loop over the years gives the closed form;
* `parseX509Time_exact_iff`.
-/
namespace AdventOS.Tls

/-! ## The calendar -/

/-- A date and a time of day. -/
structure Civil where
  year : Nat
  month : Nat
  day : Nat
  hour : Nat
  minute : Nat
  second : Nat

def daysIn (leap : Bool) (month : Nat) : Nat :=
  if month = 2 then if leap then 29 else 28
  else if month = 4 ∨ month = 6 ∨ month = 9 ∨ month = 11 then 30 else 31

/-- Days of the year before a month. -/
def daysUntil (leap : Bool) (month : Nat) : Nat :=
  ((List.range (month - 1)).map fun i => daysIn leap (i + 1)).sum

/-- Days from the first day of year 1 to that of year `y`. -/
def daysBefore (y : Nat) : Int :=
  let past : Int := y - 1
  365 * past + past / 4 - past / 100 + past / 400

/-- The calendar has the day and the clock the time. -/
structure Civil.Real (c : Civil) : Prop where
  month : 1 ≤ c.month ∧ c.month ≤ 12
  day : 1 ≤ c.day ∧ c.day ≤ daysIn (isLeap c.year) c.month
  hour : c.hour < 24
  minute : c.minute < 60
  second : c.second < 60

def Civil.unixTime (c : Civil) : Int :=
  (daysBefore c.year - daysBefore 1970 + daysUntil (isLeap c.year) c.month + c.day - 1) * 86400 +
    c.hour * 3600 + c.minute * 60 + c.second

theorem daysBefore_succ (y : Nat) :
    daysBefore (y + 1) = daysBefore y + if isLeap y then 366 else 365 := by
  simp only [daysBefore, isLeap, Bool.or_eq_true, Bool.and_eq_true, beq_iff_eq, bne_iff_ne]
  split <;> omega

theorem daysBefore_sum (n : Nat) : daysBefore (1970 + n) = daysBefore 1970 +
      (((List.range n).map fun i => if isLeap (1970 + i) then 366 else 365).sum : Nat) := by
  induction n with
  | zero => simp
  | succ n ih =>
    rw [← add_assoc, daysBefore_succ, ih, List.range_succ, List.map_append, List.sum_append]
    simp only [List.map_cons, List.map_nil, List.sum_cons, List.sum_nil]
    split <;> push_cast <;> omega

theorem daysUntil_eq (leap : Bool) : ∀ m, 1 ≤ m → m ≤ 12 →
    daysUntil leap m = monthDays.getD (m - 1) 0 + (if m > 2 ∧ leap then 1 else 0) ∧
    daysUntil leap m + daysIn leap m ≤ 365 + (if leap then 1 else 0) := by
  intro m h1 h12
  have h : ∀ leap : Bool, ∀ m < 13, 1 ≤ m →
      daysUntil leap m = monthDays.getD (m - 1) 0 + (if m > 2 ∧ leap then 1 else 0) ∧
      daysUntil leap m + daysIn leap m ≤ 365 + (if leap then 1 else 0) := by decide
  exact h leap m (by omega) h1

/-! ## The parser -/

def digitsValue (l : Bytes) : Nat := l.foldl (fun v c => v * 10 + (c.toNat - 48)) 0

def civilOf (l : Bytes) : Civil :=
  let yy := digitsValue (l.take 2)
  let rest := if l.length = 13 then l.drop 2 else l.drop 4
  { year := if l.length = 13 then (if yy < 50 then 2000 + yy else 1900 + yy)
      else digitsValue (l.take 4)
    month := digitsValue (rest.take 2)
    day := digitsValue ((rest.drop 2).take 2)
    hour := digitsValue ((rest.drop 4).take 2)
    minute := digitsValue ((rest.drop 6).take 2)
    second := digitsValue ((rest.drop 8).take 2) }

/-- The value that `parse_x509_time` stores for the fields. -/
def Civil.stored (c : Civil) : Nat :=
  civilToEpoch c.year c.month c.day c.hour c.minute c.second

variable {l l' : Bytes} {v v' : Nat} {c : Civil}

theorem readDigits_some {x : Nat} (h : readDigits l = some x) : x = digitsValue l := by
  unfold readDigits at h
  split at h
  · exact (Option.some.inj h).symm
  · cases h

theorem parseX509Time_some (h : parseX509Time l = some v) :
    v = (civilOf l).stored ∧ (1 ≤ (civilOf l).month ∧ (civilOf l).month ≤ 12) ∧
      1 ≤ (civilOf l).day := by
  unfold parseX509Time at h
  have hlen : l.length = 13 ∨ l.length = 15 := by
    by_contra hn
    obtain ⟨h13, h15⟩ := not_or.mp hn
    rw [if_neg h13, if_neg h15] at h
    cases h
  obtain hl | hl := hlen
  all_goals
    simp only [hl, if_true, if_false, Nat.reduceEqDiff] at h
    obtain ⟨yy, hyy, h⟩ := Option.bind_eq_some_iff.mp h
    obtain ⟨⟨y, rest⟩, hpair, h⟩ := Option.bind_eq_some_iff.mp h
    obtain ⟨hy, rfl⟩ := Prod.mk.inj (Option.some.inj hpair)
    obtain ⟨mo, hmo, h⟩ := Option.bind_eq_some_iff.mp h
    obtain ⟨d, hd, h⟩ := Option.bind_eq_some_iff.mp h
    obtain ⟨hh, hhh, h⟩ := Option.bind_eq_some_iff.mp h
    obtain ⟨mn, hmn, h⟩ := Option.bind_eq_some_iff.mp h
    obtain ⟨s, hs, h⟩ := Option.bind_eq_some_iff.mp h
    split at h
    · cases h
    split at h
    · cases h
    rename_i hrange
    cases h
    rw [readDigits_some hmo, readDigits_some hd] at hrange ⊢
    rw [← hy, readDigits_some hyy, readDigits_some hhh, readDigits_some hmn, readDigits_some hs]
    dsimp only at hrange
    simp only [civilOf, Civil.stored, hl, if_true, if_false, Nat.reduceEqDiff]
    exact ⟨trivial, by omega, by omega⟩

/-! ## What is stored -/

theorem stored_eq (hm : 1 ≤ c.month ∧ c.month ≤ 12) (hd : 1 ≤ c.day) (hy : 1970 ≤ c.year) :
    0 ≤ c.unixTime ∧ (c.stored : Int) = c.unixTime % 2 ^ 32 := by
  obtain ⟨n, hn⟩ := Nat.exists_eq_add_of_le hy
  have hyears := daysBefore_sum n
  rw [← hn] at hyears
  have hmonth := (daysUntil_eq (isLeap c.year) c.month hm.1 hm.2).1
  have hsub : c.year - 1970 = n := by omega
  unfold Civil.stored civilToEpoch Civil.unixTime
  rw [hyears, hmonth, hsub]
  generalize ((List.range n).map fun i => if isLeap (1970 + i) then 366 else 365).sum = years
  push_cast
  omega

theorem unixTime_neg (h : c.Real) (hy : c.year < 1970) : c.unixTime < 0 := by
  have hnext := daysBefore_succ c.year
  have hle : daysBefore (c.year + 1) ≤ daysBefore 1970 := by
    simp only [daysBefore]
    omega
  have hmonth := (daysUntil_eq (isLeap c.year) c.month h.month.1 h.month.2).2
  obtain ⟨-, hday⟩ := h.day
  have := h.hour
  have := h.minute
  have := h.second
  unfold Civil.unixTime
  split at hnext <;> simp_all <;> omega

/-- The string is a date, and the value stored for it compares with every clock value as the
date's Unix time does. -/
structure Exact (l : Bytes) (v : Nat) : Prop where
  real : (civilOf l).Real
  early : ∀ now < 2 ^ 32, (now < v ↔ (now : Int) < (civilOf l).unixTime)
  late : ∀ now < 2 ^ 32, (v < now ↔ (civilOf l).unixTime < now)

theorem Exact.eq (h : Exact l v) (hv : v < 2 ^ 32) : (civilOf l).unixTime = v := by
  have h1 := h.early v hv
  have h2 := h.late v hv
  omega

/-- An accepted string is a date that is stored exactly if and only if its day and
time exist, its year is 1970 at least and its Unix time takes 32 bits; and on such strings the
order is that of the dates. -/
theorem parseX509Time_exact_iff (h : parseX509Time l = some v) :
    (Exact l v ↔ (civilOf l).Real ∧ 1970 ≤ (civilOf l).year ∧ (civilOf l).unixTime < 2 ^ 32) ∧
    ∀ l' v', parseX509Time l' = some v' → Exact l v → Exact l' v' →
      (v < v' ↔ (civilOf l).unixTime < (civilOf l').unixTime) := by
  have hlt : ∀ {l : Bytes} {v : Nat}, parseX509Time l = some v → v < 2 ^ 32 := by
    intro l v h
    rw [(parseX509Time_some h).1]
    exact Nat.mod_lt _ (Nat.two_pow_pos 32)
  obtain ⟨hstored, hmonth, hday⟩ := parseX509Time_some h
  refine ⟨⟨fun he => ?_, fun hc => ?_⟩, fun l' v' h' he he' => ?_⟩
  · have heq := he.eq (hlt h)
    have hv := hlt h
    refine ⟨he.real, ?_, by omega⟩
    by_contra hy
    have := unixTime_neg he.real (by omega)
    omega
  · obtain ⟨hreal, hy, htime⟩ := hc
    obtain ⟨h0, hmod⟩ := stored_eq hmonth hday hy
    rw [← hstored] at hmod
    exact ⟨hreal, fun now _ => by omega, fun now _ => by omega⟩
  · have := he.eq (hlt h)
    have := he'.eq (hlt h')
    omega

/-- `700101000000Z`. -/
theorem parseX509Time_exact_epoch : Exact [55, 48, 48, 49, 48, 49, 48, 48, 48, 48, 48, 48, 90] 0 :=
  (parseX509Time_exact_iff (by decide)).1.mpr
    ⟨⟨by decide, by decide, by decide, by decide, by decide⟩, by decide, by decide⟩

/-- `700230000000Z`, the thirtieth of February, is stored as the second of March would be. -/
theorem february_thirtieth :
    ∃ v, parseX509Time [55, 48, 48, 50, 51, 48, 48, 48, 48, 48, 48, 48, 90] = some v ∧
      ¬ Exact [55, 48, 48, 50, 51, 48, 48, 48, 48, 48, 48, 48, 90] v :=
  ⟨5184000, by decide, fun h => absurd h.real.day.2 (by decide)⟩

end AdventOS.Tls
