import JXPanel.Effects

namespace JXPanel
set_option autoImplicit true

def defaultAppMinPort : Int := 10000

def defaultAppMaxPort : Int := 20000

namespace Domain

/-- The items of `domain.ports`, if there are ports. -/
def portItems (d : Domain) : Option (List JsVal) :=
  let ports := prop d.fields "ports"
  if ports.truthy then
    match ports with
    | .arr l => some l
    | v => some [v]
  else none

/-- `JSON.stringify(v) === JSON.stringify(ports)` for a list of numbers. -/
def samePorts (v : JsVal) (ports : List Int) : Bool :=
  match v with
  | .arr l => decide (l.length = ports.length) &&
      (l.zip ports).all fun e => e.1.strictEq (.num (.int e.2))
  | _ => false

/-- The list of ports is stored if it is another one. -/
def setPortList (d : Domain) (ports : List Int) : Domain × Bool :=
  if samePorts (prop d.fields "ports") ports then (d, false)
  else (d.assign "ports" (.arr (ports.map fun p => .num (.int p))), true)

/-- The ports that a domain is given from `current` on, and whether its list of them changes. -/
def takePorts (d : Domain) (max : Int) (ports_per_domain : Nat) (current : Int) : Domain × Bool :=
  let port (p : Int) : JsVal := if current ≤ max - ports_per_domain then .num (.int p) else .null
  let d := if 1 ≤ ports_per_domain then d.assign "port_http" (port current) else d
  let d := if 2 ≤ ports_per_domain then d.assign "port_https" (port (current + 1)) else d
  d.setPortList ((List.range ports_per_domain).map fun o : Nat => current + (o : Int))

end Domain

namespace Store

/-- The loop of `setPortRange`. -/
def setPorts (max : Int) (ports_per_domain : Nat) :
    List String → Int → Store → Store × Js Bool
  | [], _, s => (s, .ok false)
  | name :: names, current, s =>
    match s.getDomain? name with
    | none => (s, .error .typeError)
    | some d =>
      let r := d.takePorts max ports_per_domain current
      match setPorts max ports_per_domain names (current + ports_per_domain)
        (s.setDomain name (some r.1)) with
      | (s', .error f) => (s', .error f)
      | (s', .ok changed) => (s', .ok (r.2 || changed))

def setConfigValue (s : Store) (param : String) (value : JsVal) : Store :=
  { s with config := s.config.set param value }

/-- Iterating through domains and assigning http and https ports. The values of the form are
numbers wherever they are used. -/
def setPortRange (s : Store) (min max : Int) (ports_per_domain : Nat) : Store × Js Bool :=
  match setPorts max ports_per_domain s.getAllDomains min s with
  | (s', .error f) => (s', .error f)
  | (s', .ok changed) =>
    (((s'.setConfigValue "jx_app_min_port" (.num (.int min))).setConfigValue "jx_app_max_port"
      (.num (.int max))).setConfigValue "jx_app_port_per_domain" (.ofNat ports_per_domain),
        .ok changed)

def getPortsPerDomain (s : Store) : JsVal :=
  let v := prop s.config "jx_app_port_per_domain"
  if v.truthy then v else .num (.int 1)

/-- A configured bound is a number of few digits. -/
def portBound (v : JsVal) (default : Int) : Int :=
  match v.parseInt with
  | .int n => if n = 0 then default else n
  | _ => default

def portRange (s : Store) : Int × Int :=
  (portBound (prop s.config "jx_app_min_port") defaultAppMinPort,
    portBound (prop s.config "jx_app_max_port") defaultAppMaxPort)

/-- What the domains are taken to occupy. -/
def getTakenPorts (s : Store) : Js (List JsVal) :=
  Collect.concatM (fun name =>
    match s.getDomain? name with
    | none => .error .typeError
    | some d => .ok (d.portItems.getD [prop d.fields "port_http"])) s.getAllDomains

/-- The ports from the first one on that are not taken, as many as asked for. -/
def freePorts (taken : List JsVal) (howMany : JsVal) : Nat → Int → List Int → Option (List Int)
  | 0, _, _ => none
  | n + 1, a, ret =>
    if taken.any fun v => v.strictEq (.num (.int a)) then freePorts taken howMany n (a + 1) ret
    else if JsVal.le howMany (.ofNat (ret ++ [a]).length) then some (ret ++ [a])
    else freePorts taken howMany n (a + 1) (ret ++ [a])

def getFreePorts (s : Store) : Js (Option (List Int)) := do
  let taken ← s.getTakenPorts
  return freePorts taken s.getPortsPerDomain (s.portRange.2 + 1 - s.portRange.1).toNat s.portRange.1
    []

/-- The fields of a new domain's ports. -/
def withPorts (json : Obj) (arr : List Int) : Obj :=
  match arr with
  | [] => json
  | [p] => json.set "port_http" (.num (.int p))
  | p :: q :: _ => (json.set "port_http" (.num (.int p))).set "port_https" (.num (.int q))

/-- `sessionApply` for a new domain. The directory of the application is made behind it. -/
def sessionAddDomain (s : Store) (username : String) (json : Obj)
    (appCreateHomeDir : Js (Option String)) : Store × Js (Option String) :=
  match s.getFreePorts with
  | .error f => (s, .error f)
  | .ok none => (s, .ok (some "JXcoreAppSmallPortRange"))
  | .ok (some arr) =>
    if JsVal.lt (.ofNat arr.length) s.getPortsPerDomain then
      (s, .ok (some "JXcoreAppSmallPortRange"))
    else
      let name := (prop json "name").toKey
      match s.addDomain username name (withPorts json arr) with
      | (s', .error f) => (s', .error f)
      | (s', .ok (some err)) => (s', .ok (some err))
      | (s', .ok none) =>
        match appCreateHomeDir with
        | .error f => (s', .error f)
        | .ok none => (s', .ok none)
        | .ok (some err) =>
          match s'.deleteDomain name with
          | (s'', .error f) => (s'', .error f)
          | (s'', .ok _) => (s'', .ok (some err))

end Store

/-- The number that a port field holds, if any. -/
def numberOf (v : JsVal) : Option Int :=
  match v with
  | .num (.int n) => some n
  | _ => none

namespace Domain

def http (d : Domain) : Option Int := numberOf (prop d.fields "port_http")

def https (d : Domain) : Option Int := numberOf (prop d.fields "port_https")

def portNumbers (d : Domain) : List Int := (d.portItems.getD []).filterMap numberOf

/-- The port numbers that occur in a domain. -/
def portSet (d : Domain) : List Int := d.http.toList ++ d.https.toList ++ d.portNumbers

theorem prop_assign (d : Domain) {k : String} (hk : k ∉ domainKeys) (v : JsVal) (k' : String) :
    prop (d.assign k v).fields k' = if k' = k then v else prop d.fields k' := by
  rw [assign, dif_neg hk]
  simp only [prop, Dict.get?_set]
  split <;> rfl

theorem prop_new (name owner : String) (opts : Obj) {k : String} (hk : k ∉ domainKeys) :
    prop (Domain.new name owner opts).fields k = prop opts k := by
  have hassign : ∀ r k' v, k' ≠ k → (assign r k' v).fields.get? k = r.fields.get? k := by
    intro r k' v hne
    rw [assign]
    split
    · rw [(r.assignOwn_same k' v).fields]
    · exact Dict.get?_set_ne _ _ (Ne.symm hne)
  have hself : ∀ r v, (assign r k v).fields.get? k = some v := by
    intro r v
    rw [assign, dif_neg hk]
    exact Dict.get?_set_self _ _ _
  have hproj := Dict.foldl_project assign (fun d => d.fields.get? k) k some hself hassign opts
    { name, owner, fields := .empty, extra := extra_empty }
  rw [Domain.new, extend, prop, prop, hproj]
  cases opts.get? k <;> rfl

theorem eq_of_strictEq_int {v : JsVal} {p : Int} (h : v.strictEq (.num (.int p)) = true) :
    v = .num (.int p) := by
  cases v with
  | num n =>
    cases n with
    | int m => rw [JsNum.int.inj (of_decide_eq_true h)]
    | _ => cases h
  | _ => cases h

theorem ports_of_samePorts {v : JsVal} {ports : List Int} (h : samePorts v ports = true) :
    v = .arr (ports.map fun p => .num (.int p)) := by
  cases v with
  | arr l =>
    obtain ⟨hlen, hall⟩ := Bool.and_eq_true_iff.1 h
    have hlen' := of_decide_eq_true hlen
    have hitems : l = ports.map fun p => .num (.int p) := by
      clear h hlen
      induction l generalizing ports with
      | nil =>
        cases ports with
        | nil => rfl
        | cons p ports => cases hlen'
      | cons w l ih =>
        cases ports with
        | nil => cases hlen'
        | cons p ports =>
          obtain ⟨hw, hl⟩ := Bool.and_eq_true_iff.1 hall
          have hw' : w = .num (.int p) := eq_of_strictEq_int hw
          rw [hw', ih hl (Nat.succ.inj hlen')]
          rfl
    rw [hitems]
  | _ => cases h

theorem prop_setPortList (d : Domain) (ports : List Int) (k : String) :
    prop (d.setPortList ports).1.fields k =
      if k = "ports" then .arr (ports.map fun p => .num (.int p)) else prop d.fields k := by
  unfold setPortList
  split
  · rename_i hsame
    by_cases hk : k = "ports"
    · rw [if_pos hk, hk]
      exact ports_of_samePorts hsame
    · rw [if_neg hk]
  · exact prop_assign _ (by decide) _ _

/-- What a domain holds after the loop has come to it. -/
theorem takePorts_fields (d : Domain) (max : Int) {ports_per_domain : Nat} (h : 1 ≤ ports_per_domain)
    (current : Int) :
    prop (d.takePorts max ports_per_domain current).1.fields "port_http" =
        (if current ≤ max - ports_per_domain then .num (.int current) else .null) ∧
    prop (d.takePorts max ports_per_domain current).1.fields "port_https" =
        (if 2 ≤ ports_per_domain then
          (if current ≤ max - ports_per_domain then .num (.int (current + 1)) else .null)
        else prop d.fields "port_https") ∧
    prop (d.takePorts max ports_per_domain current).1.fields "ports" =
        .arr (((List.range ports_per_domain).map fun o : Nat => current + (o : Int)).map fun p =>
          .num (.int p)) := by
  have hhttp : "port_http" ∉ domainKeys := by decide
  have hhttps : "port_https" ∉ domainKeys := by decide
  unfold takePorts
  dsimp only
  rw [if_pos h]
  by_cases h₂ : 2 ≤ ports_per_domain
  · rw [if_pos h₂, if_pos h₂]
    refine ⟨?_, ?_, ?_⟩
    · simp [prop_setPortList, prop_assign _ hhttp, prop_assign _ hhttps]
    · simp [prop_setPortList, prop_assign _ hhttps]
    · simp [prop_setPortList]
  · rw [if_neg h₂, if_neg h₂]
    refine ⟨?_, ?_, ?_⟩
    · simp [prop_setPortList, prop_assign _ hhttp]
    · simp [prop_setPortList, prop_assign _ hhttp]
    · simp [prop_setPortList]

theorem http_takePorts (d : Domain) (max : Int) {n : Nat} (h : 1 ≤ n) (current : Int) :
    (d.takePorts max n current).1.http = if current ≤ max - n then some current else none := by
  rw [http, (d.takePorts_fields max h current).1]
  split <;> rfl

theorem https_takePorts (d : Domain) (max : Int) {n : Nat} (h : 1 ≤ n) (current : Int) :
    (d.takePorts max n current).1.https =
      if 2 ≤ n then (if current ≤ max - n then some (current + 1) else none) else d.https := by
  rw [https, (d.takePorts_fields max h current).2.1]
  split
  · split <;> rfl
  · rfl

theorem filterMap_numbers (l : List Int) :
    (l.map fun p => JsVal.num (.int p)).filterMap numberOf = l := by
  induction l with
  | nil => rfl
  | cons p l ih =>
    rw [List.map_cons, List.filterMap_cons, ih]
    rfl

theorem portNumbers_takePorts (d : Domain) (max : Int) {n : Nat} (h : 1 ≤ n) (current : Int) :
    (d.takePorts max n current).1.portNumbers =
      (List.range n).map fun o : Nat => current + (o : Int) := by
  rw [portNumbers, portItems, (d.takePorts_fields max h current).2.2]
  exact filterMap_numbers _

variable {d : Domain} {max : Int} {n : Nat} {current p : Int}

/-- A port of a domain that the loop has come to is in its share of the range, or it is the old
one for https that a share of one port leaves. -/
theorem mem_takePorts (h : 1 ≤ n) (hp : p ∈ (d.takePorts max n current).1.portSet) :
    (current ≤ p ∧ p < current + n) ∨ (n = 1 ∧ d.https = some p) := by
  rw [portSet, http_takePorts d max h, https_takePorts d max h, portNumbers_takePorts d max h,
    List.mem_append, List.mem_append, Option.mem_toList, Option.mem_toList] at hp
  rcases hp with (hp | hp) | hp
  · split at hp
    · have heq := Option.some.inj hp
      omega
    · cases hp
  · split at hp
    · split at hp
      · have heq := Option.some.inj hp
        omega
      · cases hp
    · apply Or.inr
      exact ⟨by omega, hp⟩
  · obtain ⟨o, ho, rfl⟩ := List.mem_map.1 hp
    have hlt := List.mem_range.1 ho
    omega

theorem https_mem (hp : d.https = some p) : p ∈ d.portSet := by
  rw [portSet, List.mem_append, List.mem_append, Option.mem_toList, Option.mem_toList]
  exact .inl (.inr hp)

theorem takePorts_listed (h : 1 ≤ n) (hp : (d.takePorts max n current).1.http = some p) :
    p ∈ (d.takePorts max n current).1.portNumbers := by
  rw [http_takePorts d max h] at hp
  rw [portNumbers_takePorts d max h]
  split at hp
  · rw [← Option.some.inj hp]
    exact List.mem_map.2 ⟨0, List.mem_range.2 h, by simp⟩
  · cases hp

theorem takePorts_inner (h : 1 ≤ n) (hstale : 2 ≤ n ∨ d.https ≠ some current)
    (hp : (d.takePorts max n current).1.http = some p) :
    (d.takePorts max n current).1.https ≠ some p := by
  rw [http_takePorts d max h] at hp
  rw [https_takePorts d max h]
  intro hq
  split at hp
  · have hcur := Option.some.inj hp
    split at hq
    · have hnext := Option.some.inj hq
      omega
    · rcases hstale with h₂ | hne
      · contradiction
      · rw [hcur] at hne
        exact hne hq
  · cases hp

end Domain

/-- No port is shared by two domains, and the two of a domain differ. -/
structure PortsApart (s : Store) : Prop where
  apart : ∀ a b D E, s.getDomain? a = some D → s.getDomain? b = some E → a ≠ b →
    ∀ p ∈ D.portSet, p ∉ E.portSet
  inner : ∀ a D p, s.getDomain? a = some D → D.http = some p → D.https ≠ some p

/-- The same, with what the free ports are found by: a list of ports has the first of them. -/
structure PortsKept (s : Store) : Prop extends PortsApart s where
  full : ∀ x, s.domains.get? x ≠ some none
  listed : ∀ a D p, s.getDomain? a = some D → D.portItems.isSome = true → D.http = some p →
    p ∈ D.portNumbers

namespace Store
variable {s s' : Store}

/-- The numbers of a range that are not taken. -/
def untaken (taken : List JsVal) : Nat → Int → List Int
  | 0, _ => []
  | n + 1, a =>
    if taken.any fun v => v.strictEq (.num (.int a)) then untaken taken n (a + 1)
    else a :: untaken taken n (a + 1)

/-- The numbers of the configured range that no domain is taken to occupy. -/
def unlisted (s : Store) : List Int :=
  match s.getTakenPorts with
  | .ok taken => untaken taken (s.portRange.2 + 1 - s.portRange.1).toNat s.portRange.1
  | .error _ => []

/-- How many of its ports a new domain is given fields for. -/
def givenPorts (s : Store) : Nat := if JsVal.le s.getPortsPerDomain (.ofNat 1) then 1 else 2

/-- Below every port for https that no list of ports shows, enough other numbers are left for a
new domain. -/
def HttpsSpared (s : Store) : Prop :=
  ∀ a D q, s.getDomain? a = some D → D.https = some q → q ∈ s.unlisted →
    s.givenPorts ≤ (s.unlisted.filter (· < q)).length

/-- No port for https is in the part of the range that the domains get one port each of. -/
def HttpsOutside (s : Store) (min : Int) : Prop :=
  ∀ a D q, s.getDomain? a = some D → D.https = some q →
    q < min ∨ min + s.getAllDomains.length ≤ q

/-- Domains are only taken away. -/
def DomainsWithin (s s' : Store) : Prop :=
  ∀ x v, s'.domains.get? x = some v → s.domains.get? x = some v

theorem DomainsWithin.getDomain (h : DomainsWithin s s') {a : String} {D : Domain}
    (hD : s'.getDomain? a = some D) : s.getDomain? a = some D := by
  have hs' : s'.domains.get? a = some (some D) := Option.join_eq_some_iff.1 hD
  exact Option.join_eq_some_iff.2 (h a _ hs')

theorem portsKept_within (h : PortsKept s) (hw : DomainsWithin s s') : PortsKept s' where
  apart a b D E hD hE hne := h.apart a b D E (hw.getDomain hD) (hw.getDomain hE) hne
  inner a D p hD := h.inner a D p (hw.getDomain hD)
  full x hx := h.full x (hw x none hx)
  listed a D p hD := h.listed a D p (hw.getDomain hD)

section Range

theorem getDomain?_setDomain (s : Store) (name : String) (d : Domain) (x : String) :
    (s.setDomain name (some d)).getDomain? x = if x = name then some d else s.getDomain? x := by
  rw [getDomain?, setDomain, Dict.get?_set]
  split <;> rfl

/-- The loop gives the domains of a list one share of the range after the other. -/
theorem setPorts_spec (max : Int) (n : Nat) {names : List String} (hnodup : names.Nodup)
    (current : Int) (hfull : ∀ x ∈ names, ∃ D, s.getDomain? x = some D) :
    ∃ s' b, setPorts max n names current s = (s', .ok b) ∧
      ∀ x v, s'.domains.get? x = some v → (x ∉ names ∧ s.domains.get? x = some v) ∨
        ∃ (i : Nat) (D : Domain), names[i]? = some x ∧ s.getDomain? x = some D ∧
          v = some (D.takePorts max n (current + i * n)).1 := by
  induction names generalizing current s with
  | nil => exact ⟨s, false, rfl, fun x v hv => .inl ⟨List.not_mem_nil, hv⟩⟩
  | cons name names ih =>
    obtain ⟨hnew, hnodup'⟩ := List.nodup_cons.1 hnodup
    obtain ⟨D, hD⟩ := hfull name List.mem_cons_self
    have hfull' : ∀ x ∈ names, ∃ E, (s.setDomain name
        (some (D.takePorts max n current).1)).getDomain? x = some E := by
      intro x hx
      rw [getDomain?_setDomain]
      split
      · exact ⟨_, rfl⟩
      · exact hfull x (List.mem_cons_of_mem _ hx)
    obtain ⟨s', b, hrun, hspec⟩ := ih hnodup' (current + n) hfull'
    refine ⟨s', (D.takePorts max n current).2 || b, ?_, ?_⟩
    · rw [setPorts, hD]
      dsimp only
      rw [hrun]
    · intro x v hv
      rcases hspec x v hv with ⟨hx, hget⟩ | ⟨i, E, hi, hE, rfl⟩
      · by_cases hname : x = name
        · subst hname
          rw [setDomain, Dict.get?_set_self] at hget
          refine .inr ⟨0, D, rfl, hD, ?_⟩
          rw [← Option.some.inj hget]
          simp
        · refine .inl ⟨?_, ?_⟩
          · rw [List.mem_cons, not_or]
            exact ⟨hname, hx⟩
          · rwa [setDomain, Dict.get?_set_ne _ _ hname] at hget
      · have hname : x ≠ name := by
          rintro rfl
          exact hnew (List.mem_of_getElem? hi)
        rw [getDomain?_setDomain, if_neg hname] at hE
        refine .inr ⟨i + 1, E, hi, hE, ?_⟩
        have hshare : current + n + i * n = current + (i + 1 : Nat) * (n : Int) := by
          push_cast
          ring
        rw [hshare]

/-- Shares of the range at different places have no port in common. -/
theorem share_ne {i j n : Nat} (hne : i ≠ j) {current p : Int}
    (hi : current + i * n ≤ p ∧ p < current + i * n + n)
    (hj : current + j * n ≤ p ∧ p < current + j * n + n) : False := by
  rcases Nat.lt_or_gt_of_ne hne with hlt | hlt
  · have hmul : (i + 1 : Int) * n ≤ j * n := by
      apply Int.mul_le_mul_of_nonneg_right
      · omega
      · omega
    have hexp : (i + 1 : Int) * n = i * n + n := by ring
    omega
  · have hmul : (j + 1 : Int) * n ≤ i * n := by
      apply Int.mul_le_mul_of_nonneg_right
      · omega
      · omega
    have hexp : (j + 1 : Int) * n = j * n + n := by ring
    omega

theorem mem_getAllDomains {x : String} : x ∈ s.getAllDomains ↔ ∃ v, s.domains.get? x = some v :=
  Dict.mem_iff

/-- Assigning the ports anew keeps them apart, if it leaves no port for https in a share. -/
theorem portsKept_setPortRange (h : PortsKept s) (min max : Int) {n : Nat} (hn : 1 ≤ n)
    (hstale : 2 ≤ n ∨ s.HttpsOutside min) : PortsKept (s.setPortRange min max n).1 := by
  have hfull : ∀ x ∈ s.getAllDomains, ∃ D, s.getDomain? x = some D := by
    intro x hx
    obtain ⟨v, hv⟩ := mem_getAllDomains.1 hx
    cases v with
    | none => exact (h.full x hv).elim
    | some D => exact ⟨D, Option.join_eq_some_iff.2 hv⟩
  obtain ⟨s', b, hrun, hspec⟩ := setPorts_spec max n (show s.getAllDomains.Nodup from s.domains.keys_nodup)
    min hfull
  have hget : ∀ x v, s'.domains.get? x = some v → ∃ (i : Nat) (D : Domain),
      s.getAllDomains[i]? = some x ∧ s.getDomain? x = some D ∧
        v = some (D.takePorts max n (min + i * n)).1 := by
    intro x v hv
    rcases hspec x v hv with ⟨hx, hold⟩ | hnew
    · exact (hx (mem_getAllDomains.2 ⟨v, hold⟩)).elim
    · exact hnew
  have hplace : ∀ x D', s'.getDomain? x = some D' → ∃ (i : Nat) (D : Domain),
      s.getAllDomains[i]? = some x ∧ s.getDomain? x = some D ∧
        D' = (D.takePorts max n (min + i * n)).1 := by
    intro x D' hD'
    obtain ⟨i, D, hi, hD, hv⟩ := hget x (some D') (Option.join_eq_some_iff.1 hD')
    exact ⟨i, D, hi, hD, Option.some.inj hv⟩
  -- With one port a domain, an old port for https is in no share.
  have houtside : ∀ x y E q (i : Nat), n = 1 → s.getAllDomains[i]? = some x →
      s.getDomain? y = some E → E.https = some q →
        ¬(min + i * n ≤ q ∧ q < min + i * n + n) := by
    intro x y E q i h₁ hi hE hq hin
    rcases hstale with h₂ | hout
    · omega
    · obtain ⟨hlt, -⟩ := List.getElem?_eq_some_iff.1 hi
      subst h₁
      rcases hout y E q hE hq with hlow | hhigh
      · omega
      · omega
  have hkept : PortsKept s' := by
    refine ⟨⟨?_, ?_⟩, ?_, ?_⟩
    · intro a b D' E' hD' hE' hne p hp hp'
      obtain ⟨i, D, hi, hD, rfl⟩ := hplace a D' hD'
      obtain ⟨j, E, hj, hE, rfl⟩ := hplace b E' hE'
      have hij : i ≠ j := by
        rintro rfl
        exact hne (Option.some.inj (hi.symm.trans hj))
      rcases Domain.mem_takePorts hn hp with hin | ⟨h₁, hq⟩
      · rcases Domain.mem_takePorts hn hp' with hin' | ⟨h₁', hq'⟩
        · exact share_ne hij hin hin'
        · exact houtside a b E p i h₁' hi hE hq' hin
      · rcases Domain.mem_takePorts hn hp' with hin' | ⟨-, hq'⟩
        · exact houtside b a D p j h₁ hj hD hq hin'
        · exact h.apart a b D E hD hE hne p (Domain.https_mem hq) (Domain.https_mem hq')
    · intro a D' p hD' hp
      obtain ⟨i, D, hi, hD, rfl⟩ := hplace a D' hD'
      apply Domain.takePorts_inner hn _ hp
      rcases Nat.lt_or_ge n 2 with hlt | hge
      · apply Or.inr
        intro hq
        exact houtside a a D _ i (by omega) hi hD hq (by omega)
      · exact .inl hge
    · intro x hx
      obtain ⟨i, D, -, -, hv⟩ := hget x none hx
      cases hv
    · intro a D' p hD' _ hp
      obtain ⟨i, D, -, -, rfl⟩ := hplace a D' hD'
      exact Domain.takePorts_listed hn hp
  have hset : (s.setPortRange min max n).1.domains = s'.domains := by
    rw [Store.setPortRange, hrun]
    rfl
  apply portsKept_within hkept
  intro x v hv
  rwa [hset] at hv

end Range

section Free
variable {taken : List JsVal} {howMany : JsVal} {n : Nat} {a p : Int} {arr : List Int}

theorem untaken_ge (h : p ∈ untaken taken n a) : a ≤ p := by
  induction n generalizing a with
  | zero => cases h
  | succ n ih =>
    rw [untaken] at h
    split at h
    · have hp := ih h
      omega
    · rcases List.mem_cons.1 h with rfl | h
      · exact le_refl _
      · have hp := ih h
        omega

theorem untaken_not_taken (h : p ∈ untaken taken n a) : JsVal.num (.int p) ∉ taken := by
  induction n generalizing a with
  | zero => cases h
  | succ n ih =>
    rw [untaken] at h
    split at h
    · exact ih h
    · rename_i hfree
      rcases List.mem_cons.1 h with rfl | h
      · intro hp
        apply hfree
        apply List.any_eq_true.2
        exact ⟨_, hp, decide_eq_true rfl⟩
      · exact ih h

theorem untaken_sorted (taken : List JsVal) (n : Nat) (a : Int) :
    (untaken taken n a).Pairwise (· < ·) := by
  induction n generalizing a with
  | zero => exact .nil
  | succ n ih =>
    rw [untaken]
    split
    · exact ih _
    · apply List.Pairwise.cons
      · intro q hq
        have hle := untaken_ge hq
        omega
      · exact ih _

/-- The free ports are the first of the numbers that are not taken, and only one of them when one
is enough. -/
theorem freePorts_spec {ret : List Int} (h : freePorts taken howMany n a ret = some arr) :
    ∃ l, arr = ret ++ l ∧ l <+: untaken taken n a ∧ l ≠ [] ∧
      (JsVal.le howMany (.ofNat (ret.length + 1)) = true → l.length = 1) := by
  induction n generalizing a ret with
  | zero => cases h
  | succ n ih =>
    rw [freePorts] at h
    rw [untaken]
    split at h
    · rename_i htaken
      rw [if_pos htaken]
      exact ih h
    · rename_i hfree
      rw [if_neg hfree]
      rw [List.length_append] at h
      split at h
      · refine ⟨[a], (Option.some.inj h).symm, ⟨_, rfl⟩, List.cons_ne_nil _ _, fun _ => rfl⟩
      · rename_i hmore
        obtain ⟨l, rfl, hl, -, -⟩ := ih h
        refine ⟨a :: l, List.append_assoc _ _ _, (List.cons_prefix_cons).2 ⟨rfl, hl⟩,
          List.cons_ne_nil _ _, ?_⟩
        intro henough
        exact (hmore henough).elim

theorem count_below_head {l : List Int} (h : (p :: l).Pairwise (· < ·)) :
    ((p :: l).filter (· < p)).length = 0 := by
  apply List.length_eq_zero_iff.2
  apply List.filter_eq_nil_iff.2
  intro c hc hlt
  have hcp : c < p := of_decide_eq_true hlt
  rcases List.mem_cons.1 hc with rfl | hc
  · exact lt_irrefl _ hcp
  · exact lt_asymm hcp ((List.pairwise_cons.1 h).1 c hc)

theorem count_below_second {q : Int} {l : List Int} (h : (p :: q :: l).Pairwise (· < ·)) :
    ((p :: q :: l).filter (· < q)).length = 1 := by
  obtain ⟨hp, hl⟩ := List.pairwise_cons.1 h
  have hpq := hp q List.mem_cons_self
  rw [List.filter_cons, if_pos (decide_eq_true hpq), List.length_cons, count_below_head hl]

theorem getFreePorts_ok {r : Option (List Int)} (h : s.getFreePorts = .ok r) :
    ∃ taken, s.getTakenPorts = .ok taken ∧ r = freePorts taken s.getPortsPerDomain
      (s.portRange.2 + 1 - s.portRange.1).toNat s.portRange.1 [] := by
  obtain ⟨taken, htaken, hr⟩ := Collect.bind_ok.1 h
  exact ⟨taken, htaken, (Except.ok.inj hr).symm⟩

/-- What the domains are counted to occupy has every port of a list and every port for http
without one. -/
theorem mem_getTakenPorts (h : s.getTakenPorts = .ok taken) {x : String} {D : Domain}
    (hD : s.getDomain? x = some D)
    (hp : p ∈ D.portNumbers ∨ (D.portItems = none ∧ D.http = some p)) :
    JsVal.num (.int p) ∈ taken := by
  have hnumber : ∀ v, numberOf v = some p → v = .num (.int p) := by
    intro v hv
    unfold numberOf at hv
    split at hv
    · rw [Option.some.inj hv]
    · cases hv
  apply (Collect.mem_concatM h).2
  refine ⟨x, mem_getAllDomains.2 ⟨_, Option.join_eq_some_iff.1 hD⟩,
    D.portItems.getD [prop D.fields "port_http"], by rw [hD], ?_⟩
  rcases hp with hp | ⟨hnone, hhttp⟩
  · obtain ⟨v, hv, hvp⟩ := List.mem_filterMap.1 hp
    cases hitems : D.portItems with
    | none =>
      rw [hitems] at hv
      cases hv
    | some l =>
      rw [hitems] at hv
      rw [← hnumber v hvp]
      exact hv
  · rw [hnone, ← hnumber _ hhttp]
    exact List.mem_singleton_self _

/-- A port that a new domain is given is no port for https of a domain that there is. -/
theorem HttpsSpared.not_given (h : s.HttpsSpared) (hfree : s.getFreePorts = .ok (some arr))
    {x : String} {D : Domain} {q : Int} (hD : s.getDomain? x = some D) (hq : D.https = some q) :
    q ∉ arr.take 2 := by
  obtain ⟨taken, htaken, harr⟩ := getFreePorts_ok hfree
  obtain ⟨l, hl, ⟨rest, hrest⟩, -, hone⟩ := freePorts_spec harr.symm
  rw [List.nil_append] at hl
  subst hl
  have hunlisted : s.unlisted = arr ++ rest := by
    rw [unlisted, htaken]
    exact hrest.symm
  have hsorted : s.unlisted.Pairwise (· < ·) := by
    rw [unlisted, htaken]
    exact untaken_sorted _ _ _
  rw [hunlisted] at hsorted
  intro hmem
  have hspared := h x D q hD hq (hunlisted ▸ List.mem_append_left _ (List.mem_of_mem_take hmem))
  rw [hunlisted] at hspared
  have hpos : 1 ≤ s.givenPorts := by
    unfold givenPorts
    split <;> omega
  cases arr with
  | nil => cases hmem
  | cons p arr =>
    cases arr with
    | nil =>
      rw [List.mem_singleton.1 hmem] at hspared
      rw [List.singleton_append] at hsorted hspared
      rw [count_below_head hsorted] at hspared
      omega
    | cons r arr =>
      rw [List.cons_append, List.cons_append] at hsorted hspared
      have hmore : JsVal.le s.getPortsPerDomain (.ofNat 1) = false := by
        rw [← Bool.not_eq_true]
        intro henough
        cases hone henough
      have htwo : s.givenPorts = 2 := by
        rw [givenPorts, hmore]
        rfl
      rcases List.mem_cons.1 hmem with rfl | hmem
      · rw [count_below_head hsorted] at hspared
        omega
      · rw [List.mem_singleton.1 hmem, count_below_second hsorted] at hspared
        omega

end Free

section Add
variable {json : Obj} {arr : List Int} {name owner : String} {p : Int}

/-- No control of the form is about the ports of a domain. -/
def LacksPorts (json : Obj) : Prop :=
  json.get? "port_http" = none ∧ json.get? "port_https" = none ∧ json.get? "ports" = none

/-- The port fields of a new domain are the first two of the ports that were found for it. -/
theorem ports_withPorts (h : LacksPorts json) :
    numberOf (prop (withPorts json arr) "port_http") = arr[0]? ∧
      numberOf (prop (withPorts json arr) "port_https") = arr[1]? ∧
        prop (withPorts json arr) "ports" = .undefined := by
  obtain ⟨hhttp, hhttps, hports⟩ := h
  cases arr with
  | nil => simp [withPorts, prop, hhttp, hhttps, hports, numberOf]
  | cons p arr =>
    cases arr with
    | nil => simp [withPorts, prop, Dict.get?_set, hhttps, hports, numberOf]
    | cons q arr => simp [withPorts, prop, Dict.get?_set, hports, numberOf]

theorem ports_new (h : LacksPorts json) (name owner : String) (arr : List Int) :
    (Domain.new name owner (withPorts json arr)).http = arr[0]? ∧
      (Domain.new name owner (withPorts json arr)).https = arr[1]? ∧
        (Domain.new name owner (withPorts json arr)).portItems = none := by
  obtain ⟨hhttp, hhttps, hports⟩ := ports_withPorts h
  refine ⟨?_, ?_, ?_⟩
  · rw [Domain.http, Domain.prop_new _ _ _ (by decide)]
    exact hhttp
  · rw [Domain.https, Domain.prop_new _ _ _ (by decide)]
    exact hhttps
  · rw [Domain.portItems, Domain.prop_new _ _ _ (by decide), hports]
    rfl

theorem mem_portSet_new (h : LacksPorts json)
    (hp : p ∈ (Domain.new name owner (withPorts json arr)).portSet) : p ∈ arr.take 2 := by
  obtain ⟨hhttp, hhttps, hitems⟩ := ports_new h name owner arr
  rw [Domain.portSet, Domain.portNumbers, hhttp, hhttps, hitems] at hp
  have htake : ∀ i < 2, arr[i]? = some p → p ∈ arr.take 2 := by
    intro i hi hget
    apply List.mem_of_getElem? (i := i)
    rwa [List.getElem?_take_of_lt hi]
  simp only [Option.getD_none, List.filterMap_nil, List.append_nil, List.mem_append,
    Option.mem_toList] at hp
  rcases hp with hp | hp
  · exact htake 0 (by omega) hp
  · exact htake 1 (by omega) hp

/-- A new domain with free ports keeps the ports apart. -/
theorem portsKept_attachDomain (h : PortsKept s) (hspared : s.HttpsSpared)
    (hjson : LacksPorts json) (hfree : s.getFreePorts = .ok (some arr)) (o : String) :
    PortsKept (s.attachDomain o name (Domain.new name owner (withPorts json arr))) := by
  obtain ⟨taken, htaken, harr⟩ := getFreePorts_ok hfree
  obtain ⟨l, hl, hbegins, -, -⟩ := freePorts_spec harr.symm
  rw [List.nil_append] at hl
  subst hl
  obtain ⟨hhttp, hhttps, hitems⟩ := ports_new hjson name owner arr
  have hold : ∀ x D, s.getDomain? x = some D → ∀ p ∈ D.portSet, p ∉ arr.take 2 := by
    intro x D hD p hp hmem
    have hnot := untaken_not_taken (hbegins.subset (List.mem_of_mem_take hmem))
    rw [Domain.portSet, List.mem_append, List.mem_append, Option.mem_toList,
      Option.mem_toList] at hp
    rcases hp with (hp | hp) | hp
    · apply hnot
      apply mem_getTakenPorts htaken hD
      cases hsome : D.portItems with
      | none => exact .inr ⟨rfl, hp⟩
      | some l => exact .inl (h.listed x D p hD (by rw [hsome]; rfl) hp)
    · exact hspared.not_given hfree hD hp hmem
    · exact hnot (mem_getTakenPorts htaken hD (.inl hp))
  have hget : ∀ x v, (s.attachDomain o name
      (Domain.new name owner (withPorts json arr))).domains.get? x = some v →
        (x = name ∧ v = some (Domain.new name owner (withPorts json arr))) ∨
          (x ≠ name ∧ s.domains.get? x = some v) := by
    intro x v hv
    by_cases hx : x = name
    · rw [attachDomain, setDomain, hx, Dict.get?_set_self] at hv
      exact .inl ⟨hx, (Option.some.inj hv).symm⟩
    · rw [attachDomain, setDomain, Dict.get?_set_ne _ _ hx] at hv
      exact .inr ⟨hx, hv⟩
  have hcases : ∀ x D, (s.attachDomain o name
      (Domain.new name owner (withPorts json arr))).getDomain? x = some D →
        (x = name ∧ D = Domain.new name owner (withPorts json arr)) ∨
          (x ≠ name ∧ s.getDomain? x = some D) := by
    intro x D hD
    rcases hget x (some D) (Option.join_eq_some_iff.1 hD) with ⟨hx, hv⟩ | ⟨hx, hv⟩
    · exact .inl ⟨hx, Option.some.inj hv⟩
    · exact .inr ⟨hx, Option.join_eq_some_iff.2 hv⟩
  refine ⟨⟨?_, ?_⟩, ?_, ?_⟩
  · intro a b D E hD hE hne p hp hp'
    rcases hcases a D hD with ⟨ha, rfl⟩ | ⟨-, hD⟩
    · rcases hcases b E hE with ⟨hb, -⟩ | ⟨-, hE⟩
      · exact hne (ha.trans hb.symm)
      · exact hold b E hE p hp' (mem_portSet_new hjson hp)
    · rcases hcases b E hE with ⟨-, rfl⟩ | ⟨-, hE⟩
      · exact hold a D hD p hp (mem_portSet_new hjson hp')
      · exact h.apart a b D E hD hE hne p hp hp'
  · intro a D p hD hp hq
    rcases hcases a D hD with ⟨-, rfl⟩ | ⟨-, hD⟩
    · rw [hhttp] at hp
      rw [hhttps] at hq
      have hsorted := (untaken_sorted taken _ _).sublist hbegins.sublist
      obtain ⟨h₀, hp₀⟩ := List.getElem?_eq_some_iff.1 hp
      obtain ⟨h₁, hq₁⟩ := List.getElem?_eq_some_iff.1 hq
      have hlt := List.pairwise_iff_getElem.1 hsorted 0 1 h₀ h₁ Nat.zero_lt_one
      omega
    · exact h.inner a D p hD hp hq
  · intro x hx
    rcases hget x none hx with ⟨-, hv⟩ | ⟨-, hv⟩
    · cases hv
    · exact h.full x hv
  · intro a D p hD hsome hp
    rcases hcases a D hD with ⟨-, rfl⟩ | ⟨-, hD⟩
    · rw [hitems] at hsome
      cases hsome
    · exact h.listed a D p hD hsome hp

end Add

section Deletes

theorem DomainsWithin.refl (s : Store) : DomainsWithin s s := fun _ _ h => h

theorem DomainsWithin.trans {s'' : Store} (h : DomainsWithin s s') (h' : DomainsWithin s' s'') :
    DomainsWithin s s'' := fun x v hv => h x v (h' x v hv)

theorem domainsWithin_eraseDomain (s : Store) (name : String) :
    DomainsWithin s (s.eraseDomain name) := by
  intro x v hv
  rw [eraseDomain, Dict.get?_erase] at hv
  split at hv
  · cases hv
  · exact hv

theorem domainsWithin_deleteDomain (s : Store) (name : String) :
    DomainsWithin s (s.deleteDomain name).1 := by
  rcases hr : s.deleteDomain name with ⟨s', r⟩
  rcases deleteDomain_cases hr with ⟨rfl, -⟩ | ⟨D, -, ⟨-, rfl, -⟩ | ⟨-, rfl, -⟩⟩
  · exact .refl _
  · exact domainsWithin_eraseDomain s name
  · exact domainsWithin_eraseDomain s name

theorem domainsWithin_deletePlan (s : Store) (name : String) :
    DomainsWithin s (s.deletePlan name).1 := by
  rcases hr : s.deletePlan name with ⟨s', r⟩
  rcases deletePlan_cases hr with ⟨rfl, -⟩ | ⟨plan, owner, arr, -, -, -, rfl, -⟩
  · exact .refl _
  · intro x v hv
    rw [removePlan, Dict.get?_eraseAll] at hv
    split at hv
    · cases hv
    · exact hv

theorem domainsWithin_deleteSubPlans (os : List String) (s : Store) (subs : Report) :
    DomainsWithin s (deleteSubPlans os s subs).1 := by
  induction os generalizing s subs with
  | nil => exact .refl s
  | cons o os ih =>
    have ho := domainsWithin_deletePlan s o
    rw [deleteSubPlans]
    rcases hr : s.deletePlan o with ⟨s₁, r⟩
    rw [hr] at ho
    cases r with
    | error f => exact ho
    | ok res => exact ho.trans (ih s₁ _)

theorem domainsWithin_dropDomains (s : Store) (name : String) (l : List String) :
    DomainsWithin s (Collect.runAll (dropDomainOf name) l s).1 := by
  apply Collect.runAll_keeps (P := DomainsWithin s) _ (.refl s)
  intro t d _ ht
  apply ht.trans
  unfold dropDomainOf
  split
  · exact .refl t
  · exact .refl t
  · dsimp only
    split
    · exact domainsWithin_eraseDomain t d
    · exact .refl t

theorem domainsWithin_deleteUser (s : Store) (name : String) :
    DomainsWithin s (s.deleteUser name).1 := by
  unfold deleteUser
  cases s.users.get? name with
  | none => exact .refl s
  | some user =>
    have hplans := domainsWithin_deleteSubPlans user.subPlans.keys s
      { plans := [], users := [name], domains := [] }
    dsimp only
    rcases hrun : deleteSubPlans user.subPlans.keys s
      { plans := [], users := [name], domains := [] } with ⟨s₁, r⟩
    rw [hrun] at hplans
    cases r with
    | error f => exact hplans
    | ok subs =>
      have hdomains := domainsWithin_dropDomains (s₁.detachUser name) name s₁.domains.keys
      dsimp only
      rcases hdrop : Collect.runAll (dropDomainOf name) s₁.domains.keys (s₁.detachUser name) with
        ⟨s₂, r₂⟩
      rw [hdrop] at hdomains
      have hboth : DomainsWithin s s₂ := hplans.trans hdomains
      cases r₂ with
      | error f => exact hboth
      | ok _ => exact hboth

end Deletes

/-- The requests that give ports to domains or take domains away. -/
inductive PortRequest
  | addDomain (username : String) (json : Obj) (appCreateHomeDir : Js (Option String))
  | deleteDomain (name : String)
  | deleteUser (name : String)
  | deletePlan (name : String)
  | setPortRange (min max : Int) (ports_per_domain : Nat)

/-- The store a request leaves, also when it fails. -/
def answer (s : Store) : PortRequest → Store
  | .addDomain username json appCreateHomeDir => (s.sessionAddDomain username json appCreateHomeDir).1
  | .deleteDomain name => (s.deleteDomain name).1
  | .deleteUser name => (s.deleteUser name).1
  | .deletePlan name => (s.deletePlan name).1
  | .setPortRange min max ports_per_domain => (s.setPortRange min max ports_per_domain).1

/-- The validators of the three fields of the range. The room for the domains is counted with the
number of ports that was configured before. -/
def rangeAccepted (s : Store) (min max : Int) (ports_per_domain : Nat) : Bool :=
  decide (1 ≤ ports_per_domain) && decide (ports_per_domain ≤ 10) &&
  decide (defaultAppMinPort ≤ min) && decide (min ≤ defaultAppMaxPort) &&
  decide (min < max) && decide (max ≤ defaultAppMaxPort) &&
  (match s.getPortsPerDomain.toNumber with
  | .int ppd => !decide (max - min < s.getAllDomains.length * ppd)
  | _ => true)

/-- What the forms accept. -/
def Accepted (s : Store) : PortRequest → Prop
  | .addDomain _ json _ => LacksPorts json
  | .setPortRange min max ports_per_domain => s.rangeAccepted min max ports_per_domain = true
  | _ => True

/-- A domain is added while every port for https that is not in a list is spared, and one port a
domain is configured while every port for https is outside of what is given out. -/
def HttpsSafe (s : Store) : PortRequest → Prop
  | .addDomain _ _ _ => s.HttpsSpared
  | .setPortRange min _ ports_per_domain => 2 ≤ ports_per_domain ∨ s.HttpsOutside min
  | _ => True

theorem portsKept_sessionAddDomain (h : PortsKept s) (hspared : s.HttpsSpared) {json : Obj}
    (hjson : LacksPorts json) (username : String) (appCreateHomeDir : Js (Option String)) :
    PortsKept (s.sessionAddDomain username json appCreateHomeDir).1 := by
  unfold sessionAddDomain
  cases hfree : s.getFreePorts with
  | error f => exact h
  | ok found =>
    cases found with
    | none => exact h
    | some arr =>
      dsimp only
      split
      · exact h
      · have hadded : PortsKept (s.addDomain username (prop json "name").toKey
            (withPorts json arr)).1 := by
          rcases hadd : s.addDomain username (prop json "name").toKey (withPorts json arr) with
            ⟨s', r⟩
          rcases addDomain_cases hadd with ⟨rfl, -⟩ | ⟨-, -, user, plan, -, -, -, rfl⟩
          · exact h
          · exact portsKept_attachDomain h hspared hjson hfree username
        rcases hadd : s.addDomain username (prop json "name").toKey (withPorts json arr) with
          ⟨s', r⟩
        rw [hadd] at hadded
        rcases r with f | (_ | err)
        · exact hadded
        · rcases appCreateHomeDir with f | (_ | err)
          · exact hadded
          · exact hadded
          · have hgone := portsKept_within hadded
              (domainsWithin_deleteDomain s' (prop json "name").toKey)
            dsimp only
            rcases hdel : s'.deleteDomain (prop json "name").toKey with ⟨s'', r⟩
            rw [hdel] at hgone
            cases r with
            | error f => exact hgone
            | ok rep => exact hgone
        · exact hadded

theorem portsKept_answer (h : PortsKept s) {c : PortRequest} (hc : s.Accepted c)
    (hsafe : s.HttpsSafe c) : PortsKept (s.answer c) := by
  cases c with
  | addDomain username json appCreateHomeDir =>
    exact portsKept_sessionAddDomain h hsafe hc username appCreateHomeDir
  | deleteDomain name => exact portsKept_within h (domainsWithin_deleteDomain s name)
  | deleteUser name => exact portsKept_within h (domainsWithin_deleteUser s name)
  | deletePlan name => exact portsKept_within h (domainsWithin_deletePlan s name)
  | setPortRange min max n =>
    have hn : 1 ≤ n := by
      rw [Accepted, rangeAccepted] at hc
      simp only [Bool.and_eq_true, decide_eq_true_eq] at hc
      exact hc.1.1.1.1.1.1
    exact portsKept_setPortRange h min max hn hsafe

/-- Ports are not shared in any store that a run of accepted requests comes to, if each is made
while the ports for https that `getTakenPorts` leaves out are safe. -/
theorem ports_apart {start : Store} (hstart : start.domains.keys = [])
    (h : Runs.Reached answer start (fun s c => s.Accepted c ∧ s.HttpsSafe c) s) :
    PortsApart s := by
  have hnone : ∀ x, start.domains.get? x = none := by
    intro x
    apply Dict.get?_eq_none.2
    rw [← Dict.mem_keys, hstart]
    exact List.not_mem_nil
  have hinit : PortsKept start := by
    have hno : ∀ x D, start.getDomain? x ≠ some D := by
      intro x D hD
      rw [getDomain?, hnone] at hD
      cases hD
    refine ⟨⟨?_, ?_⟩, ?_, ?_⟩
    · intro a b D E hD
      exact (hno a D hD).elim
    · intro a D p hD
      exact (hno a D hD).elim
    · intro x hx
      rw [hnone] at hx
      cases hx
    · intro a D p hD
      exact (hno a D hD).elim
  have hkept : PortsKept s := h.keeps hinit fun t c ht hc => portsKept_answer ht hc.1 hc.2
  exact hkept.toPortsApart

def siteJson (name : String) : Obj := Dict.ofList [("name", .str name)]

/-- A store with a user who may have domains and has none. -/
def hosting : Store := installed.run (sampleCalls.take 3)

/-- Every port for https is spared once it is for the domains that there are. -/
theorem httpsSpared_of_all (h : ∀ a ∈ s.domains.keys, ∀ q ∈ ((s.getDomain? a).bind Domain.https).toList,
    q ∈ s.unlisted → s.givenPorts ≤ (s.unlisted.filter (· < q)).length) : s.HttpsSpared := by
  intro a D q hD hq hin
  have hmem : a ∈ s.domains.keys := Dict.mem_of_get? (Option.join_eq_some_iff.1 hD)
  refine h a hmem q ?_ hin
  rw [hD, Option.bind_some, hq]
  exact List.mem_singleton_self q

/-- A domain has its list of ports from the range, another one has none, and a third one is given
what is left by the first one below the port for https of the second. -/
def threeDomains : List PortRequest :=
  [.setPortRange 10000 10020 2, .addDomain "bob" (siteJson "bob.org") (.ok none), .setPortRange 10000 10020 2,
    .addDomain "bob" (siteJson "bob.net") (.ok none), .deleteDomain "bob.org",
    .addDomain "bob" (siteJson "bob.info") (.ok none)]

theorem ports_apart_sample :
    ((threeDomains.foldl answer hosting).domains.keys.map fun x =>
      (x, ((threeDomains.foldl answer hosting).getDomain? x).map fun D => (D.http, D.https))) =
        [("bob.net", some (some 10002, some 10003)), ("bob.info", some (some 10000, some 10001))] ∧
      PortsApart (threeDomains.foldl answer hosting) := by
  have hnone : hosting.domains.keys = [] := rfl
  refine ⟨by decide +kernel, ports_apart hnone (Runs.Reached.run .start ?_)⟩
  refine ⟨⟨rfl, .inl (le_refl 2)⟩, ⟨⟨rfl, rfl, rfl⟩, httpsSpared_of_all ?_⟩, ⟨rfl, .inl (le_refl 2)⟩,
    ⟨⟨rfl, rfl, rfl⟩, httpsSpared_of_all ?_⟩, ⟨trivial, trivial⟩, ⟨⟨rfl, rfl, rfl⟩, httpsSpared_of_all ?_⟩, trivial⟩
  · decide +kernel
  · decide +kernel
  · decide +kernel

/-- With two ports a domain, the second domain that is added gets the port for https of the
first. -/
theorem ports_shared :
    ¬∀ start s : Store, start.domains.keys = [] → Runs.Reached answer start Accepted s →
      PortsApart s := by
  intro h
  have hrun : Runs.Reached answer hosting Accepted
      ([.setPortRange 10000 20000 2, .addDomain "bob" (siteJson "bob.org") (.ok none),
        .addDomain "bob" (siteJson "bob.net") (.ok none)].foldl answer hosting) := by
    apply Runs.Reached.run .start
    exact ⟨rfl, ⟨rfl, rfl, rfl⟩, ⟨rfl, rfl, rfl⟩, trivial⟩
  have happart := (h hosting _ rfl hrun).apart "bob.org" "bob.net" _ _ rfl rfl (by decide) 10001
  exact happart (by decide) (by decide)

end Store
end JXPanel
