import JXPanel.HostNames

namespace JXPanel
set_option autoImplicit true

section Digits
variable {t : String} {cs : List Char}

/-- The number that a text of digits stands for. -/
def portNumber (t : String) : Nat := Nat.ofDigitChars 10 t.toList 0

def AllDigits (t : String) : Prop := t ≠ "" ∧ ∀ c ∈ t.toList, c.isDigit = true

theorem readDigits_digits (h : ∀ c ∈ cs, c.isDigit = true) (acc cnt : Nat) :
    readDigits 10 cs acc cnt = (Nat.ofDigitChars 10 cs acc, cnt + cs.length) := by
  induction cs generalizing acc cnt with
  | nil => rfl
  | cons c cs ih =>
    have hc := h c List.mem_cons_self
    have hlt : c.toNat - '0'.toNat < 10 := by
      simp only [Char.isDigit, Bool.and_eq_true, decide_eq_true_eq] at hc
      have hle := UInt32.le_iff_toNat_le.1 hc.2
      change c.toNat ≤ 57 at hle
      change c.toNat - 48 < 10
      omega
    rw [readDigits, digitVal, if_pos hc]
    dsimp only
    rw [if_pos hlt, ih (fun x hx => h x (List.mem_cons_of_mem _ hx)), Nat.ofDigitChars_cons, Nat.mul_comm,
      List.length_cons, Nat.add_assoc, Nat.add_comm 1]

theorem prefixNumber_digits (hne : cs ≠ []) (h : ∀ c ∈ cs, c.isDigit = true) :
    prefixNumber 10 cs = JsNum.ofNat (Nat.ofDigitChars 10 cs 0) := by
  rw [prefixNumber, readDigits_digits h, Nat.zero_add]
  cases cs with
  | nil => exact absurd rfl hne
  | cons c cs => rfl

theorem dropWhile_digits (h : ∀ c ∈ cs, c.isDigit = true) : cs.dropWhile jsSpace = cs := by
  cases cs with
  | nil => rfl
  | cons c cs => rw [List.dropWhile_cons, jsSpace_of_isDigit (h c List.mem_cons_self), if_neg Bool.false_ne_true]

theorem AllDigits.toList_ne_nil (h : AllDigits t) : t.toList ≠ [] :=
  fun he => h.1 (String.toList_eq_nil_iff.1 he)

theorem numberOfChars_digits (hne : cs ≠ []) (h : ∀ c ∈ cs, c.isDigit = true) :
    JsVal.numberOfChars cs = JsNum.ofNat (Nat.ofDigitChars 10 cs 0) := by
  have hall : cs.all Char.isDigit = true := List.all_eq_true.2 h
  unfold JsVal.numberOfChars
  split
  · exact absurd rfl hne
  · exact absurd (h '-' List.mem_cons_self) (by decide)
  · exact absurd (h '+' List.mem_cons_self) (by decide)
  · exact (if_pos hall).trans (prefixNumber_digits hne h)

/-- A text of digits is the same number to `parseInt` and in arithmetic. -/
theorem AllDigits.toNumber (h : AllDigits t) : (JsVal.str t).toNumber = JsNum.ofNat (portNumber t) := by
  change JsVal.numberOfChars (trim t.toList) = _
  rw [trim_of_no_space fun c hc => jsSpace_of_isDigit (h.2 c hc)]
  exact numberOfChars_digits h.toList_ne_nil h.2

theorem AllDigits.parseInt (h : AllDigits t) : (JsVal.str t).parseInt = JsNum.ofNat (portNumber t) := by
  change signedPrefix (t.toList.dropWhile jsSpace) = _
  rw [dropWhile_digits h.2]
  have hunsigned : unsignedPrefix t.toList = JsNum.ofNat (portNumber t) := by
    unfold unsignedPrefix
    split
    · rename_i cs hcs
      exact absurd (h.2 'x' (hcs ▸ List.mem_cons_of_mem _ List.mem_cons_self)) (by decide)
    · rename_i cs hcs
      exact absurd (h.2 'X' (hcs ▸ List.mem_cons_of_mem _ List.mem_cons_self)) (by decide)
    · exact prefixNumber_digits h.toList_ne_nil h.2
  unfold signedPrefix
  split
  · rename_i cs hcs
    exact absurd (h.2 '-' (hcs ▸ List.mem_cons_self)) (by decide)
  · rename_i cs hcs
    exact absurd (h.2 '+' (hcs ▸ List.mem_cons_self)) (by decide)
  · exact hunsigned

/-- Rounding takes no number across a small one. -/
theorem lt_ofNat_iff {b : Int} (hb : b < 2 ^ 52) (k : Nat) : (JsNum.int b).lt (JsNum.ofNat k) = decide (b < k) := by
  unfold JsNum.ofNat
  split
  · rfl
  · rename_i hk
    have hpow : 2 ^ k.log2 ≤ k := Nat.log2_self_le (by omega)
    have hlog : 53 ≤ k.log2 := (Nat.le_log2 (by omega)).2 (by omega)
    have hquot : 2 ^ 52 ≤ k / 2 ^ (k.log2 - 52) := by
      rw [Nat.le_div_iff_mul_le (Nat.two_pow_pos _), ← Nat.pow_add]
      rwa [Nat.add_sub_cancel' (by omega)]
    have hright : decide (b < (k : Int)) = true := decide_eq_true (by omega)
    rw [hright]
    have hbig : ∀ q : Nat, 2 ^ 52 ≤ q → b < ((q * 2 ^ (k.log2 - 52) : Nat) : Int) := by
      intro q hq
      have hmul : q ≤ q * 2 ^ (k.log2 - 52) := Nat.le_mul_of_pos_right _ (Nat.two_pow_pos _)
      omega
    have hrounded : ∀ (c : Prop) [Decidable c] (q : Nat), 2 ^ 52 ≤ q →
        (JsNum.int b).lt (if c then .int (q * 2 ^ (k.log2 - 52) : Nat) else .posInf) = true := by
      intro c _ q hq
      by_cases hc : c
      · rw [if_pos hc]
        exact decide_eq_true (hbig q hq)
      · rw [if_neg hc]
        rfl
    apply hrounded
    split
    · exact Nat.le_succ_of_le hquot
    · exact hquot

theorem ofNat_of_lt {k : Nat} (h : k < 2 ^ 53) : JsNum.ofNat k = .int k := if_pos h

end Digits

/-- `Int.validate` of a text, with the test for its options. An empty text is left to the check of the
required controls. -/
def intAccepted (options : JsNum → Bool) (val : String) : Bool :=
  decide (val = "") || (val.toList.all Char.isDigit && options (JsVal.str val).parseInt)

theorem intAccepted_digits {options : JsNum → Bool} {val : String} (hne : val ≠ "")
    (h : intAccepted options val = true) : AllDigits val ∧ options (JsNum.ofNat (portNumber val)) = true := by
  rw [intAccepted, decide_eq_false hne, Bool.false_or, Bool.and_eq_true, List.all_eq_true] at h
  have hdigits : AllDigits val := ⟨hne, h.1⟩
  rw [hdigits.parseInt] at h
  exact ⟨hdigits, h.2⟩

theorem le_of_not_lt_ofNat {b : Int} {k : Nat} (hb : b < 2 ^ 52) (h : (!(JsNum.int b).lt (JsNum.ofNat k)) = true) :
    (k : Int) ≤ b := by
  rw [lt_ofNat_iff hb, Bool.not_eq_true', decide_eq_false_iff_not] at h
  omega

namespace Store
variable {s : Store} {min max ports_per_domain : String}

/-- `MaxPort.validate`. The room for the domains is counted with the ports that were configured before. -/
def maxPortAccepted (s : Store) (min val : String) : Bool :=
  intAccepted (fun p => (decide (min = "") || !(JsVal.num p).le (.str min)) &&
    !(JsNum.int defaultAppMaxPort).lt p) val &&
  !((JsVal.str val).toNumber.plus (JsVal.str min).toNumber.neg).lt
    (s.getPortsPerDomain.toNumber.times s.getAllDomains.length)

/-- The form's validators of the range and of the ports for a domain, which are all required. -/
def settingsAccepted (s : Store) (min max ports_per_domain : String) : Bool :=
  decide (min ≠ "" ∧ max ≠ "" ∧ ports_per_domain ≠ "") &&
  intAccepted (fun p => !p.lt (.int 1) && !(JsNum.int 10).lt p) ports_per_domain &&
  intAccepted (fun p => !p.lt (.int defaultAppMinPort) && !(JsNum.int defaultAppMaxPort).lt p) min &&
  s.maxPortAccepted min max

/-- `setPortRange` of texts. The loop counts with the numbers they are read as, and they are stored
as they are. -/
def setPortRangeText (s : Store) (min max ports_per_domain : String) : Store × Js Bool :=
  let read (t : String) : Int := (numberOf (.num (JsVal.str t).toNumber)).getD 0
  match setPorts (read max) (read ports_per_domain).toNat s.getAllDomains (read min) s with
  | (s', .error f) => (s', .error f)
  | (s', .ok changed) =>
    (((s'.setConfigValue "jx_app_min_port" (.str min)).setConfigValue "jx_app_max_port"
      (.str max)).setConfigValue "jx_app_port_per_domain" (.str ports_per_domain), .ok changed)

/-- What the validators promise of the texts. -/
structure GoodSettings (min max ports_per_domain : String) : Prop where
  minDigits : AllDigits min
  maxDigits : AllDigits max
  perDomainDigits : AllDigits ports_per_domain
  low : defaultAppMinPort ≤ portNumber min
  ordered : portNumber min < portNumber max
  high : portNumber max ≤ defaultAppMaxPort
  some : 1 ≤ portNumber ports_per_domain
  few : portNumber ports_per_domain ≤ 10

theorem goodSettings (h : s.settingsAccepted min max ports_per_domain = true) :
    GoodSettings min max ports_per_domain := by
  rw [settingsAccepted, Bool.and_eq_true, Bool.and_eq_true, Bool.and_eq_true, decide_eq_true_eq, maxPortAccepted,
    Bool.and_eq_true] at h
  obtain ⟨⟨⟨⟨hmin, hmax, hper⟩, hperInt⟩, hminInt⟩, hmaxInt, -⟩ := h
  obtain ⟨hperDigits, hperRange⟩ := intAccepted_digits hper hperInt
  obtain ⟨hminDigits, hminRange⟩ := intAccepted_digits hmin hminInt
  obtain ⟨hmaxDigits, hmaxRange⟩ := intAccepted_digits hmax hmaxInt
  rw [Bool.and_eq_true] at hperRange hminRange hmaxRange
  have hten := le_of_not_lt_ofNat (by decide) hperRange.2
  have htop := le_of_not_lt_ofNat (by decide) hminRange.2
  have htop' := le_of_not_lt_ofNat (by decide) hmaxRange.2
  rw [defaultAppMaxPort] at htop htop'
  rw [ofNat_of_lt (by omega)] at hperRange hminRange hmaxRange
  have hone : ¬((portNumber ports_per_domain : Int) < 1) := by
    apply of_decide_eq_false
    exact (Bool.not_eq_true' _).mp hperRange.1
  have hlow : ¬((portNumber min : Int) < defaultAppMinPort) := by
    apply of_decide_eq_false
    exact (Bool.not_eq_true' _).mp hminRange.1
  have hbelow : (JsVal.num (.int (portNumber max))).le (.str min) = decide (portNumber max ≤ portNumber min) := by
    change (JsNum.int (portNumber max)).le (JsVal.str min).toNumber = _
    rw [hminDigits.toNumber, ofNat_of_lt (by omega), JsNum.le, JsNum.lt, ← decide_not]
    · exact decide_eq_decide.2 (by omega)
    · exact fun he => by cases he
    · exact fun he => by cases he
  have hordered := hmaxRange.1
  rw [hbelow, decide_eq_false hmin, Bool.false_or, Bool.not_eq_true', decide_eq_false_iff_not] at hordered
  refine ⟨hminDigits, hmaxDigits, hperDigits, by omega, by omega, ?_, by omega, by omega⟩
  rw [defaultAppMaxPort]
  exact htop'

/-- The loop comes to every domain. -/
theorem setPorts_get (max : Int) (n : Nat) {names : List String} (hnodup : names.Nodup)
    (current : Int) (hfull : ∀ x ∈ names, ∃ D, s.getDomain? x = some D) :
    ∃ s' b, setPorts max n names current s = (s', .ok b) ∧
      (∀ x, x ∉ names → s'.getDomain? x = s.getDomain? x) ∧
      ∀ (i : Nat) x D, names[i]? = some x → s.getDomain? x = some D →
        s'.getDomain? x = some (D.takePorts max n (current + i * n)).1 := by
  induction names generalizing current s with
  | nil => exact ⟨s, false, rfl, fun _ _ => rfl, fun i x D hi => by cases hi⟩
  | cons name names ih =>
    obtain ⟨hnew, hnodup'⟩ := List.nodup_cons.1 hnodup
    obtain ⟨D, hD⟩ := hfull name List.mem_cons_self
    have hfull' : ∀ x ∈ names, ∃ E, (s.setDomain name
        (some (D.takePorts max n current).1)).getDomain? x = some E := by
      intro x hx
      rw [getDomain?_setDomain]
      split
      · exact ⟨_, rfl⟩
      · exact hfull x (List.mem_cons_of_mem _ hx)
    obtain ⟨s', b, hrun, hrest, hget⟩ := ih hnodup' (current + n) hfull'
    refine ⟨s', (D.takePorts max n current).2 || b, ?_, fun x hx => ?_, fun i x E hi hE => ?_⟩
    · rw [setPorts, hD]
      dsimp only
      rw [hrun]
    · rw [List.mem_cons, not_or] at hx
      rw [hrest x hx.2, getDomain?_setDomain, if_neg hx.1]
    · cases i with
      | zero =>
        obtain rfl := Option.some.inj hi
        obtain rfl := Option.some.inj (hD.symm.trans hE)
        rw [hrest _ hnew, getDomain?_setDomain, if_pos rfl, Nat.cast_zero, zero_mul, add_zero]
      | succ i =>
        have hne : x ≠ name := by
          intro he
          rw [he] at hi
          exact hnew (List.mem_of_getElem? hi)
        have hshare : current + n + i * n = current + (i + 1 : Nat) * (n : Int) := by
          push_cast
          ring
        rw [← hshare]
        exact hget i x E hi (by rw [getDomain?_setDomain, if_neg hne]; exact hE)

/-- Every domain is there. -/
def Filled (s : Store) : Prop := ∀ x ∈ s.domains, ∃ D, s.getDomain? x = some D

/-- The domains after the ports were assigned: each has its share of the range. -/
theorem setPortRangeText_get (hs : s.Filled) (h : GoodSettings min max ports_per_domain) :
    ∀ x D', (s.setPortRangeText min max ports_per_domain).1.getDomain? x = some D' ↔
      ∃ (i : Nat) (D : Domain), s.getAllDomains[i]? = some x ∧ s.getDomain? x = some D ∧
        D' = (D.takePorts (portNumber max) (portNumber ports_per_domain)
          (portNumber min + i * portNumber ports_per_domain)).1 := by
  have hread : ∀ t, AllDigits t → portNumber t < 2 ^ 53 →
      (numberOf (.num (JsVal.str t).toNumber)).getD 0 = (portNumber t : Int) := by
    intro t ht hlt
    rw [ht.toNumber, ofNat_of_lt hlt, numberOf, Option.getD_some]
  have hhigh := h.high
  have hordered := h.ordered
  have hfew := h.few
  rw [defaultAppMaxPort] at hhigh
  obtain ⟨s', b, hrun, hrest, hget⟩ := setPorts_get (s := s) (portNumber max : Int) (portNumber ports_per_domain)
    (show s.getAllDomains.Nodup from s.domains.keys_nodup) (portNumber min : Int) hs
  have hsame : ∀ x, (s.setPortRangeText min max ports_per_domain).1.getDomain? x = s'.getDomain? x := by
    intro x
    rw [setPortRangeText]
    dsimp only
    rw [hread _ h.minDigits (by omega), hread _ h.maxDigits (by omega),
      hread _ h.perDomainDigits (by omega), Int.toNat_natCast, hrun]
    rfl
  intro x D'
  rw [hsame]
  constructor
  · intro hD'
    by_cases hx : x ∈ s.getAllDomains
    · obtain ⟨i, hi⟩ := List.mem_iff_getElem?.1 hx
      obtain ⟨D, hD⟩ := hs x hx
      rw [hget i x D hi hD] at hD'
      exact ⟨i, D, hi, hD, (Option.some.inj hD').symm⟩
    · rw [hrest x hx] at hD'
      exact absurd (mem_getAllDomains.2 ⟨_, Option.join_eq_some_iff.1 hD'⟩) hx
  · rintro ⟨i, D, hi, hD, he⟩
    rw [he]
    exact hget i x D hi hD

/-- A port field that holds nothing. -/
def NoPort (v : JsVal) : Prop := v = .undefined ∨ v = .null

/-- Every domain is served from the range: its port for http is set, the one for https is one of its ports,
and its ports are in the range and its own. -/
structure Served (s : Store) (lo hi : Int) (n : Nat) : Prop where
  http : ∀ x D, s.getDomain? x = some D → ¬NoPort (prop D.fields "port_http")
  https : ∀ x D, s.getDomain? x = some D → (n = 1 ∧ NoPort (prop D.fields "port_https")) ∨
    ∃ p ∈ D.portNumbers, prop D.fields "port_https" = .num (.int p)
  within : ∀ x D, s.getDomain? x = some D → ∀ p ∈ D.portNumbers, lo ≤ p ∧ p ≤ hi
  apart : ∀ x y D E, s.getDomain? x = some D → s.getDomain? y = some E → x ≠ y → ∀ p ∈ D.portNumbers, p ∉ E.portNumbers

/-- The range has a number to spare behind the shares of all domains, and with one port a domain no domain keeps
another port for https than the one it gets. -/
def RangeServes (s : Store) (lo hi : Int) (n : Nat) : Prop :=
  lo + s.getAllDomains.length * n ≤ hi ∧ (n = 1 → ∀ (i : Nat) x D, s.getAllDomains[i]? = some x →
    s.getDomain? x = some D → NoPort (prop D.fields "port_https") ∨ prop D.fields "port_https" = .num (.int (lo + i)))

theorem mem_share {n : Nat} {d : Domain} {max current p : Int} (hn : 1 ≤ n) :
    p ∈ (d.takePorts max n current).1.portNumbers ↔ current ≤ p ∧ p < current + n := by
  rw [Domain.portNumbers_takePorts d max hn, List.mem_map]
  constructor
  · intro ⟨o, ho, hp⟩
    have hlt := List.mem_range.1 ho
    omega
  · intro ⟨hle, hlt⟩
    exact ⟨(p - current).toNat, List.mem_range.2 (by omega), by omega⟩

/-- The share of a domain lies before the end of all shares. -/
theorem share_le {i k n : Nat} (hik : i < k) : (i : Int) * n + n ≤ k * n := by
  have hmul : (i + 1 : Int) * n ≤ k * n := Int.mul_le_mul_of_nonneg_right (by omega) (by omega)
  have hexp : (i + 1 : Int) * n = i * n + n := by ring
  omega

theorem domains_served_iff (hs : s.Filled) (h : s.settingsAccepted min max ports_per_domain = true) :
    (s.setPortRangeText min max ports_per_domain).1.Served (portNumber min) (portNumber max)
        (portNumber ports_per_domain) ↔
      s.RangeServes (portNumber min) (portNumber max) (portNumber ports_per_domain) := by
  have hgood := goodSettings h
  have hget := setPortRangeText_get hs hgood
  have hn := hgood.some
  have hordered := hgood.ordered
  generalize portNumber ports_per_domain = n at hget hn ⊢
  generalize (s.setPortRangeText min max ports_per_domain).1 = s' at hget ⊢
  constructor
  · intro hserved
    constructor
    · cases hlen : s.getAllDomains.length with
      | zero =>
        rw [Nat.cast_zero, zero_mul]
        omega
      | succ k =>
        -- the last domain has the end of the shares
        have hi : s.getAllDomains[k]? = some s.getAllDomains[k] := List.getElem?_eq_getElem (by omega)
        obtain ⟨D, hD⟩ := hs _ (List.mem_of_getElem? hi)
        have hhttp := hserved.http _ _ ((hget _ _).2 ⟨k, D, hi, hD, rfl⟩)
        rw [(D.takePorts_fields _ hn _).1] at hhttp
        by_cases hroom : (portNumber min + k * n : Int) ≤ portNumber max - n
        · push_cast
          have hexp : (k + 1 : Int) * n = k * n + n := by ring
          omega
        · rw [if_neg hroom] at hhttp
          exact absurd (.inr rfl) hhttp
    · intro hone i x D hi hD
      subst hone
      have hhttps := hserved.https _ _ ((hget _ _).2 ⟨i, D, hi, hD, rfl⟩)
      rw [(D.takePorts_fields _ hn _).2.1, if_neg (by omega)] at hhttps
      rcases hhttps with hno | ⟨p, hp, he⟩
      · exact .inl hno.2
      · rw [mem_share hn] at hp
        right
        rw [he]
        congr 2
        push_cast at hp
        omega
  · intro ⟨hspare, hold⟩
    have hroom : ∀ (i : Nat) x, s.getAllDomains[i]? = some x →
        (portNumber min + i * n : Int) + n ≤ portNumber max := by
      intro i x hi
      obtain ⟨hlt, -⟩ := List.getElem?_eq_some_iff.1 hi
      have hle := share_le (n := n) hlt
      omega
    refine ⟨fun x D' hD' => ?_, fun x D' hD' => ?_, fun x D' hD' p hp => ?_, fun x y D' E' hD' hE' hne p hp hp' => ?_⟩
    · obtain ⟨i, D, hi, hD, rfl⟩ := (hget x D').1 hD'
      have hle := hroom i x hi
      rw [(D.takePorts_fields _ hn _).1, if_pos (by omega)]
      intro hno
      cases hno with
      | inl he => cases he
      | inr he => cases he
    · obtain ⟨i, D, hi, hD, rfl⟩ := (hget x D').1 hD'
      have hle := hroom i x hi
      rw [(D.takePorts_fields _ hn _).2.1]
      by_cases htwo : 2 ≤ n
      · rw [if_pos htwo, if_pos (by omega)]
        exact .inr ⟨_, (mem_share hn).2 (by omega), rfl⟩
      · rw [if_neg htwo]
        have hone : n = 1 := by omega
        rcases hold hone i x D hi hD with hno | he
        · exact .inl ⟨hone, hno⟩
        · refine .inr ⟨_, (mem_share hn).2 ?_, he⟩
          subst hone
          push_cast
          omega
    · obtain ⟨i, D, hi, hD, rfl⟩ := (hget x D').1 hD'
      have hle := hroom i x hi
      rw [mem_share hn] at hp
      have hpos : (0 : Int) ≤ i * n := by positivity
      omega
    · obtain ⟨i, D, hi, hD, rfl⟩ := (hget x D').1 hD'
      obtain ⟨j, E, hj, hE, rfl⟩ := (hget y E').1 hE'
      have hij : i ≠ j := by
        intro he
        rw [he] at hi
        exact hne (Option.some.inj (hi.symm.trans hj))
      rw [mem_share hn] at hp hp'
      exact share_ne hij hp hp'

theorem filled_of_all (h : s.domains.entries.all (fun e => e.2.isSome) = true) : s.Filled := by
  intro x hx
  obtain ⟨v, hv⟩ := Dict.mem_iff.1 hx
  obtain ⟨D, hD⟩ := Option.isSome_iff_exists.1 (List.all_eq_true.1 h _ (Dict.get?_eq_some.1 hv))
  exact ⟨D, Option.join_eq_some_iff.2 (hv.trans (congrArg some hD))⟩

/-- A user with three domains. -/
def threeSites : Store :=
  installed.run (sampleCalls ++ [.addDomain "bob" "bob.net" .empty, .addDomain "bob" "bob.info" .empty])

theorem domains_served_sample : threeSites.getAllDomains = ["bob.org", "bob.net", "bob.info"] ∧
    (threeSites.setPortRangeText "10000" "10006" "2").1.Served 10000 10006 2 := by
  refine ⟨by decide +kernel, (domains_served_iff (filled_of_all (by decide +kernel))
    (show threeSites.settingsAccepted "10000" "10006" "2" = true by decide +kernel)).2 ?_⟩
  exact ⟨by decide +kernel, fun h => absurd h (by decide +kernel)⟩

/-- The room is counted for one port a domain, and two are given out. -/
theorem domain_without_port : ¬∀ (s : Store) (min max ports_per_domain : String), s.Filled →
    s.settingsAccepted min max ports_per_domain = true →
      (s.setPortRangeText min max ports_per_domain).1.Served (portNumber min) (portNumber max)
        (portNumber ports_per_domain) := by
  intro h
  have hserved := h (installed.run sampleCalls) "10000" "10001" "2" (filled_of_all (by decide +kernel))
    (by decide +kernel)
  obtain ⟨D, hD, hport⟩ := Option.map_eq_some_iff.1
    (show (((installed.run sampleCalls).setPortRangeText "10000" "10001" "2").1.getDomain? "bob.org").map
      (fun D => (prop D.fields "port_http").strictEq .null) = some true by decide +kernel)
  apply hserved.http _ D hD
  right
  generalize prop D.fields "port_http" = v at hport
  cases v with
  | null => rfl
  | num m => cases m <;> cases hport
  | _ => cases hport

section Admission
variable {n demand : Nat} {c : HostRequest}

/-- Whether a domain has the port, as the allocation of ports counts it. -/
def inUse (s : Store) (a : Int) : Bool :=
  s.getAllDomains.any fun x => ((s.getDomain? x).map fun D =>
    (D.portItems.getD [prop D.fields "port_http"]).any fun v => v.strictEq (.num (.int a))).getD false

/-- The ports of the configured range. -/
def portsOfRange (s : Store) : List Int :=
  (List.range (s.portRange.2 + 1 - s.portRange.1).toNat).map fun k : Nat => s.portRange.1 + (k : Int)

def usedCount (s : Store) : Nat := s.portsOfRange.countP s.inUse

def freeCount (s : Store) : Nat := s.portsOfRange.countP fun a => !s.inUse a

/-- The ports a domain gets, and how many the validators ask for: the digits of a text are joined to the
number of ports that the domains have. -/
inductive Demands (s : Store) : (n demand : Nat) → Prop
  | absent : prop s.config "jx_app_port_per_domain" = .undefined → Demands s 1 (s.getAllDomains.length + 1)
  | text {t : String} : prop s.config "jx_app_port_per_domain" = .str t → AllDigits t → 1 ≤ portNumber t →
      portNumber t ≤ 10 →
        Demands s (portNumber t) (s.getAllDomains.length * portNumber t * 10 ^ t.length + portNumber t)

/-- The bounds are those of a form that was accepted, or the defaults. -/
structure RangeConfigured (s : Store) : Prop where
  low : defaultAppMinPort ≤ s.portRange.1
  ordered : s.portRange.1 ≤ s.portRange.2
  high : s.portRange.2 ≤ defaultAppMaxPort

/-- Nothing but a lack of ports is against the name. -/
def OtherwiseValid (s : Store) : HostRequest → Prop
  | .addDomain _ val _ _ => checkDomain val = true ∧ s.getDomain? (withoutWww val) = none
  | .addSubDomain _ main_domain val _ _ => checkSubDomain val = true ∧ main_domain ≠ "" ∧
      main_domain.toList.isSuffixOf (withoutWww val).toList = false ∧
      s.getDomain? (withoutWww val ++ "." ++ main_domain) = none
  | _ => False

/-- The name is refused just when there are not as many free ports as a domain gets, and otherwise the
allocation finds them. -/
structure AdmissionAgrees (s : Store) (n : Nat) (c : HostRequest) : Prop where
  refuses : s.newDomain c = none ↔ s.freeCount < n
  allocates : s.newDomain c ≠ none → ∃ arr, s.getFreePorts = .ok (some arr) ∧ n ≤ arr.length ∧
    JsVal.lt (.ofNat arr.length) s.getPortsPerDomain = false

theorem newDomain_none_iff (h : s.OtherwiseValid c) : s.newDomain c = none ↔ s.portsSuffice = false := by
  have hchoice : ∀ val : String, (if (!s.portsSuffice) = true then none else some val) = none ↔
      s.portsSuffice = false := by
    intro val
    cases s.portsSuffice with
    | true => exact iff_of_false (fun he => by cases he) fun he => by cases he
    | false => exact iff_of_true rfl rfl
  cases c with
  | addDomain username val json home =>
    obtain ⟨hval, hnew⟩ := h
    rw [newDomain, acceptDomain, hval, if_neg (show ¬(!true) = true from Bool.false_ne_true)]
    dsimp only
    rw [hnew, if_neg (show ¬(none : Option Domain).isSome = true from Bool.false_ne_true)]
    exact hchoice _
  | addSubDomain username main_domain val json home =>
    obtain ⟨hval, hmain, hsuffix, hnew⟩ := h
    rw [newDomain, acceptSubDomain, hval, if_neg (show ¬(!true) = true from Bool.false_ne_true)]
    dsimp only
    rw [if_neg hmain, hsuffix, if_neg Bool.false_ne_true, hnew,
      if_neg (show ¬(none : Option Domain).isSome = true from Bool.false_ne_true)]
    exact hchoice _
  | _ => exact h.elim

theorem portNumber_append (a b : String) : portNumber (a ++ b) = portNumber a * 10 ^ b.length + portNumber b := by
  rw [portNumber, String.toList_append, Nat.ofDigitChars_append, Nat.ofDigitChars_eq_ofDigitChars_zero,
    String.length_toList, Nat.mul_comm]
  rfl

theorem portNumber_repr (k : Nat) : portNumber (toString k) = k := by
  rw [portNumber, Nat.toString_eq_ofList_toDigits, String.toList_ofList, Nat.ofDigitChars_ten_toDigits]

/-- What the configured number of ports amounts to in a comparison, and in what the validators ask for. -/
theorem Demands.reads (h : s.Demands n demand) : 1 ≤ n ∧
    (∀ m : Nat, JsVal.le s.getPortsPerDomain (.ofNat m) = decide (n ≤ m)) ∧
    (∀ m : Nat, JsVal.lt (.ofNat m) s.getPortsPerDomain = decide (m < n)) ∧
    ∀ b : Int, b < 2 ^ 52 →
      (JsVal.num (.int b)).lt (neededPorts s.getAllDomains.length s.getPortsPerDomain) = decide (b < demand) := by
  cases h with
  | absent hppd =>
    have hone : s.getPortsPerDomain = .num (.int 1) := by
      rw [getPortsPerDomain, hppd]
      rfl
    rw [hone]
    refine ⟨le_refl 1, fun m => JsVal.ofNat_le 1 m, fun m => ?_, fun b _ => ?_⟩
    · exact decide_eq_decide.2 (by omega)
    · exact decide_eq_decide.2 (by rw [mul_one]; push_cast; exact Iff.rfl)
  | text hppd hdigits hsome hfew =>
    rename_i t
    have htext : s.getPortsPerDomain = .str t := by
      rw [getPortsPerDomain, hppd, JsVal.truthy, decide_eq_true hdigits.1]
      rfl
    have hnumber : (JsVal.str t).toNumber = .int (portNumber t) := by
      rw [hdigits.toNumber, ofNat_of_lt (by omega)]
    rw [htext]
    refine ⟨hsome, fun m => ?_, fun m => ?_, fun b hb => ?_⟩
    · change (JsVal.str t).toNumber.le (.int m) = _
      rw [hnumber]
      exact JsVal.ofNat_le _ m
    · change (JsNum.int m).lt (JsVal.str t).toNumber = _
      rw [hnumber]
      exact decide_eq_decide.2 (by omega)
    · change (JsNum.int b).lt (JsVal.str (((JsVal.str t).toNumber.times s.getAllDomains.length).toKey ++ t)).toNumber = _
      have hjoined : ((JsVal.str t).toNumber.times s.getAllDomains.length).toKey =
          toString (s.getAllDomains.length * portNumber t) := by
        rw [hnumber]
        rfl
      have hall : AllDigits (toString (s.getAllDomains.length * portNumber t) ++ t) := by
        refine ⟨fun he => ?_, fun c hc => ?_⟩
        · exact hdigits.1 (String.append_eq_empty_iff.1 he).2
        · rw [String.toList_append, List.mem_append, Nat.toString_eq_ofList_toDigits, String.toList_ofList] at hc
          rcases hc with hc | hc
          · exact Nat.isDigit_of_mem_toDigits (by decide) (by decide) hc
          · exact hdigits.2 c hc
      rw [hjoined, hall.toNumber, lt_ofNat_iff hb, portNumber_append, portNumber_repr]

theorem untaken_eq (taken : List JsVal) (k : Nat) (a : Int) : untaken taken k a =
    ((List.range k).map fun i : Nat => a + (i : Int)).filter fun b => !taken.any fun v => v.strictEq (.num (.int b)) := by
  induction k generalizing a with
  | zero => rfl
  | succ k ih =>
    have hshift : ((List.range k).map fun i : Nat => a + ((i + 1 : Nat) : Int)) =
        (List.range k).map fun i : Nat => a + 1 + (i : Int) := by
      apply List.map_congr_left
      intro i _
      omega
    rw [untaken, ih, List.range_succ_eq_map, List.map_cons, List.map_map, Nat.cast_zero, add_zero, List.filter_cons]
    change _ = if _ then a :: List.filter _ ((List.range k).map fun i : Nat => a + ((i + 1 : Nat) : Int)) else
      List.filter _ ((List.range k).map fun i : Nat => a + ((i + 1 : Nat) : Int))
    rw [hshift]
    cases taken.any fun v => v.strictEq (.num (.int a)) with
    | true => rfl
    | false => rfl

/-- The search stops at the last of the ports asked for, and fails when there are not as many. -/
theorem freePorts_eq {taken : List JsVal} {howMany : JsVal}
    (h : ∀ m : Nat, JsVal.le howMany (.ofNat m) = decide (n ≤ m)) {k : Nat} {a : Int} {ret : List Int}
    (hret : ret.length < n) : freePorts taken howMany k a ret =
      if n ≤ ret.length + (untaken taken k a).length then some (ret ++ (untaken taken k a).take (n - ret.length))
      else none := by
  induction k generalizing a ret with
  | zero =>
    rw [freePorts, untaken, List.length_nil, if_neg (by omega)]
  | succ k ih =>
    rw [freePorts, untaken]
    by_cases htaken : (taken.any fun v => v.strictEq (.num (.int a))) = true
    · rw [if_pos htaken, if_pos htaken, ih hret]
    · rw [if_neg htaken, if_neg htaken, h, List.length_append, List.length_singleton, List.length_cons]
      by_cases hdone : n ≤ ret.length + 1
      · have hlast : n - ret.length = 1 := by omega
        rw [if_pos (decide_eq_true hdone), if_pos (by omega), hlast]
        rfl
      · have hmore : n - ret.length = n - (ret ++ [a]).length + 1 := by
          rw [List.length_append, List.length_singleton]
          omega
        rw [if_neg (fun he => hdone (of_decide_eq_true he)), ih (by
          rw [List.length_append, List.length_singleton]
          omega), hmore, List.take_succ_cons, List.append_assoc, List.length_append, List.length_singleton,
          List.singleton_append]
        congr 1
        exact propext (by omega)

theorem getTakenPorts_any (hs : s.Filled) : ∃ taken, s.getTakenPorts = .ok taken ∧
    ∀ a : Int, (taken.any fun v => v.strictEq (.num (.int a))) = s.inUse a := by
  refine ⟨s.getAllDomains.flatMap fun x =>
    ((s.getDomain? x).map fun D => D.portItems.getD [prop D.fields "port_http"]).getD [], ?_, fun a => ?_⟩
  · apply Collect.concatM_eq
    intro x hx
    obtain ⟨D, hD⟩ := hs x hx
    rw [hD]
    rfl
  · rw [List.any_flatMap, inUse]
    congr 1
    funext x
    cases s.getDomain? x <;> rfl

theorem free_add_used (s : Store) : s.freeCount + s.usedCount = (s.portRange.2 + 1 - s.portRange.1).toNat := by
  have hlen : s.portsOfRange.length = (s.portRange.2 + 1 - s.portRange.1).toNat := by
    rw [portsOfRange, List.length_map, List.length_range]
  have hsplit := List.length_eq_countP_add_countP s.inUse (l := s.portsOfRange)
  rw [freeCount, usedCount, ← hlen, hsplit, Nat.add_comm]
  congr 2
  funext a
  cases s.inUse a <;> rfl

theorem getFreePorts_eq (hs : s.Filled) (h : ∀ m : Nat, JsVal.le s.getPortsPerDomain (.ofNat m) = decide (n ≤ m))
    (hn : 1 ≤ n) : ∃ arr : List Int, s.getFreePorts = .ok (if n ≤ s.freeCount then some arr else none) ∧
      (n ≤ s.freeCount → arr.length = n) := by
  obtain ⟨taken, htaken, hany⟩ := getTakenPorts_any hs
  have hfree : untaken taken (s.portRange.2 + 1 - s.portRange.1).toNat s.portRange.1 =
      s.portsOfRange.filter fun a => !s.inUse a := by
    rw [untaken_eq, portsOfRange]
    congr 1
    funext a
    rw [hany]
  have hcount : (untaken taken (s.portRange.2 + 1 - s.portRange.1).toNat s.portRange.1).length = s.freeCount := by
    rw [hfree, freeCount, List.countP_eq_length_filter]
  refine ⟨(s.portsOfRange.filter fun a => !s.inUse a).take n, ?_, fun hle => ?_⟩
  · rw [getFreePorts, htaken]
    change Except.ok (freePorts _ _ _ _ _) = _
    rw [freePorts_eq h (show ([] : List Int).length < n from hn), hcount, hfree, List.length_nil, Nat.zero_add,
      Nat.sub_zero, List.nil_append]
  · rw [List.length_take, ← hfree, hcount]
    omega

/-- The validators and the allocation of ports agree about a name just when what the validators ask for is within
the difference of the bounds exactly if the ports in use and those of one more domain are within the range. -/
theorem admission_agrees_iff (hs : s.Filled) (hr : s.RangeConfigured) (hd : s.Demands n demand)
    (hc : s.OtherwiseValid c) : s.AdmissionAgrees n c ↔
      ((demand : Int) ≤ s.portRange.2 - s.portRange.1 ↔ (n : Int) + s.usedCount ≤ s.portRange.2 - s.portRange.1 + 1) := by
  obtain ⟨hn, hle, hlt, hneeded⟩ := hd.reads
  obtain ⟨arr, harr, hlength⟩ := getFreePorts_eq hs hle hn
  have hhigh := hr.high
  have hlow := hr.low
  have hordered := hr.ordered
  rw [defaultAppMaxPort] at hhigh
  rw [defaultAppMinPort] at hlow
  have hcount := free_add_used s
  have hsuffice : s.portsSuffice = false ↔ ¬((demand : Int) ≤ s.portRange.2 - s.portRange.1) := by
    rw [portsSuffice, hneeded _ (by omega), Bool.not_eq_false', decide_eq_true_eq]
    omega
  have hfew : s.freeCount < n ↔ ¬((n : Int) + s.usedCount ≤ s.portRange.2 - s.portRange.1 + 1) := by omega
  constructor
  · intro h
    have hrefuses := h.refuses
    rw [newDomain_none_iff hc, hsuffice, hfew, not_iff_not] at hrefuses
    exact hrefuses
  · intro h
    have hrefuses : s.newDomain c = none ↔ s.freeCount < n := by
      rw [newDomain_none_iff hc, hsuffice, hfew, not_iff_not]
      exact h
    refine ⟨hrefuses, fun haccepted => ?_⟩
    have henough : n ≤ s.freeCount := Nat.le_of_not_lt (mt hrefuses.2 haccepted)
    rw [if_pos henough] at harr
    refine ⟨arr, harr, Nat.le_of_eq (hlength henough).symm, ?_⟩
    rw [hlt, hlength henough]
    exact decide_eq_false (lt_irrefl n)

end Admission

/-- The requests about domains and the form that configures the range. -/
inductive PortEvent
  | host (c : HostRequest)
  | configure (min max ports_per_domain : String)

def portEvent (s : Store) : PortEvent → Store
  | .host c => s.host c
  | .configure min max ports_per_domain => (s.setPortRangeText min max ports_per_domain).1

/-- The form is stored when its validators accept it. -/
def PortEventAccepted (s : Store) : PortEvent → Prop
  | .host _ => True
  | .configure min max ports_per_domain => s.settingsAccepted min max ports_per_domain = true

/-- Bob has a domain in a range that was configured with one port a domain. -/
def oneDomain (max : String) : Store :=
  [.configure "10000" max "1", .host (.addDomain "bob" "bob.org" .empty (.ok none))].foldl portEvent hosting

def bobNet : HostRequest := .addDomain "bob" "bob.net" .empty (.ok none)

theorem demands_oneDomain {max : String}
    (h : (prop (oneDomain max).config "jx_app_port_per_domain").strictEq (.str "1") = true)
    (hlen : (oneDomain max).getAllDomains.length = 1) : (oneDomain max).Demands 1 11 := by
  have htext : prop (oneDomain max).config "jx_app_port_per_domain" = .str "1" := by
    generalize prop (oneDomain max).config "jx_app_port_per_domain" = v at h
    cases v with
    | str t => rw [of_decide_eq_true h]
    | num m => cases m <;> cases h
    | _ => cases h
  have hdigits : AllDigits "1" := by
    refine ⟨by decide, fun c hc => ?_⟩
    have hone : c = '1' := List.mem_singleton.1 hc
    rw [hone]
    rfl
  have hdemands := Demands.text htext hdigits (by decide) (by decide)
  rw [hlen] at hdemands
  exact hdemands

theorem otherwiseValid_bobNet {max : String} (h : ((oneDomain max).getDomain? "bob.net").isNone = true) :
    (oneDomain max).OtherwiseValid bobNet := by
  have hname : withoutWww "bob.net" = "bob.net" := by decide
  refine ⟨by decide +kernel, ?_⟩
  rw [hname]
  exact Option.isNone_iff_eq_none.1 h

theorem admission_agrees_sample : (oneDomain "10050").AdmissionAgrees 1 bobNet := by
  apply (admission_agrees_iff (filled_of_all (by decide +kernel))
    ⟨by decide +kernel, by decide +kernel, by decide +kernel⟩
    (demands_oneDomain (by decide +kernel) (by decide +kernel)) (otherwiseValid_bobNet (by decide +kernel))).2
  exact ⟨fun _ => by decide +kernel, fun _ => by decide +kernel⟩

/-- One domain and one more are eleven. -/
theorem free_ports_refused : ¬∀ start s : Store, start.domains.keys = [] →
    Runs.Reached portEvent start PortEventAccepted s → ∀ n demand c, s.Demands n demand → s.OtherwiseValid c →
      s.AdmissionAgrees n c := by
  intro h
  have hrun : Runs.Reached portEvent hosting PortEventAccepted (oneDomain "10010") := by
    apply Runs.Reached.run .start
    exact ⟨show hosting.settingsAccepted "10000" "10010" "1" = true by decide +kernel, trivial, trivial⟩
  have hagrees := h hosting _ rfl hrun 1 11 bobNet (demands_oneDomain (by decide +kernel) (by decide +kernel))
    (otherwiseValid_bobNet (by decide +kernel))
  have hnone : (oneDomain "10010").newDomain bobNet = none := by decide +kernel
  have hfree : ¬(oneDomain "10010").freeCount < 1 := by decide +kernel
  exact hfree (hagrees.refuses.1 hnone)

end Store
end JXPanel
