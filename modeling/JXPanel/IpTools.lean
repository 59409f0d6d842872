import JXPanel.Growth
import JXPanel.NginxConf
import JXPanel.Ports

namespace JXPanel
set_option autoImplicit true

/-- The argument `v6`: `false`, `true` or `"both"`. -/
inductive IpMode
  | no
  | yes
  | both
deriving DecidableEq

/-- The argument as a condition. -/
def IpMode.truthy : IpMode → Bool
  | .no => false
  | .yes => true
  | .both => true

namespace JsVal

mutual
/-- `JSON.parse(JSON.stringify(v))` of a value in a list. -/
def jsonCopy : JsVal → JsVal
  | undefined => null
  | null => null
  | bool b => bool b
  | num (.int n) => num (.int n)
  | num _ => null
  | str s => str s
  | arr l => arr (jsonItems l)
  | obj fs => obj (jsonFields fs)

def jsonItems : List JsVal → List JsVal
  | [] => []
  | v :: l => v.jsonCopy :: jsonItems l

def jsonFields : List (String × JsVal) → List (String × JsVal)
  | [] => []
  | (_, undefined) :: fs => jsonFields fs
  | (k, v) :: fs => (k, v.jsonCopy) :: jsonFields fs
end

end JsVal

namespace IpTools
open Store
variable (m : Machine) (s : Store)

/-- `_concat` -/
def concat (ipv4 ipv6 : List JsVal) (v6 : IpMode) : List JsVal :=
  (if v6.truthy || decide (v6 = .both) then JsVal.jsonItems ipv6 else []) ++
    if !v6.truthy || decide (v6 = .both) then JsVal.jsonItems ipv4 else []

/-- `list.indexOf(v) !== -1`, for a list of texts. -/
def listed (list : List String) (v : JsVal) : Bool := list.any fun a => JsVal.strictEq v (.str a)

def getPlanIPs (plan : Option Plan) (v6 : IpMode) : Except String (List JsVal) :=
  match plan with
  | none => .error "PlanInvalid"
  | some plan =>
    if plan.name = unlimitedPlanName then .ok (concat (m.ifcv4_list.map .str) (m.ifcv6_list.map .str) v6)
    else
      let pool := if v6.truthy then prop plan.fields "plan_ipv6_pool" else prop plan.fields "plan_ipv4_pool"
      if !pool.truthy then (if v6.truthy then .ok [] else .error "PlanParentNoIPv4Pool")
      else
        let ipv6 := (Machine.items pool).filter fun ip => v6.truthy && listed m.ifcv6_list ip
        let ipv4 := (Machine.items pool).filter fun ip => !v6.truthy && listed m.ifcv4_list ip
        .ok (concat ipv4 ipv6 v6)

/-- `ips.indexOf(v) !== -1` -/
def among (ips : List JsVal) (v : JsVal) : Bool := ips.any fun ip => JsVal.strictEq v ip

def getPlanByDomainName (name : String) : Js (Option Plan) :=
  match s.getDomain? name with
  | none => .error (.thrown (name ++ " domain doesn't exist"))
  | some domain =>
    match s.users.get? domain.owner with
    | none => .error .typeError
    | some user => .ok (s.plans.get? user.plan)

def getDomainIPs (domain : Option Domain) (v6 : IpMode) : Js (Except String (List JsVal)) :=
  match domain with
  | none => .ok (.error "DomainNotFound")
  | some domain => do
    let plan ← getPlanByDomainName s domain.name
    match getPlanIPs m plan v6 with
    | .error err => return .error err
    | .ok ips =>
      let sub_ipv4 := prop domain.fields "sub_ipv4"
      let sub_ipv6 := prop domain.fields "sub_ipv6"
      if !v6.truthy && !among ips sub_ipv4 then return .error ("IPDoesNotExists|" ++ sub_ipv4.toKey)
      if v6.truthy && sub_ipv6.truthy && !among ips sub_ipv6 then
        return .error ("IPDoesNotExists|" ++ sub_ipv6.toKey)
      return .ok (concat [sub_ipv4] [sub_ipv6] v6)

def getAllIPs (v6 : IpMode) : List JsVal := concat (m.ifcv4_list.map .str) (m.ifcv6_list.map .str) v6

/-- What the loop of the check adds for one domain. -/
def invalidApp (ips : List JsVal) (o : String) : Js (List String) :=
  match s.getDomain? o with
  | none => .error .typeError
  | some domain =>
    if !among ips (prop domain.fields "sub_ipv4") || !among ips (prop domain.fields "sub_ipv6") then .ok [domain.name]
    else .ok []

def getAppsWithInvalidIP : Js (List String) := do
  let ips := getAllIPs m .both
  let allDomains ← s.getDomainsByPlanName unlimitedPlanName 100000
  Collect.concatM (invalidApp s ips) allDomains

/-- The pool of a plan for addresses of one kind. -/
def poolOf (P : Plan) (six : Bool) : JsVal := prop P.fields (if six then "plan_ipv6_pool" else "plan_ipv4_pool")

/-- The addresses of one kind that the host has. -/
def hostIPs (six : Bool) : List String := if six then m.ifcv6_list else m.ifcv4_list

/-- The host has the address, and the plan has it in its pool. The root plan has all that the host has. -/
def Usable (P : Plan) (six : Bool) (v : JsVal) : Prop :=
  v ∈ (hostIPs m six).map JsVal.str ∧ (P.name = unlimitedPlanName ∨ v ∈ Machine.items (poolOf P six))

/-- The addresses that are set for a domain. -/
def addresses (D : Domain) : List JsVal :=
  [prop D.fields "sub_ipv6", prop D.fields "sub_ipv4"].filter JsVal.truthy

def OnHost (v : JsVal) : Prop := v ∈ (m.ifcv6_list ++ m.ifcv4_list).map JsVal.str

/-- An address that is set for the domain is not there on the host. -/
def HasGone (D : Domain) : Prop := ∃ v ∈ addresses D, ¬OnHost m v

def Fails (D : Domain) (v6 : IpMode) : Prop := ∃ err, getDomainIPs m s (some D) v6 = .ok (.error err)

/-- The four functions agree on the addresses of a plan and of a domain of it. -/
structure AddressesAgree (P : Plan) (D : Domain) : Prop where
  plan : getPlanIPs m (some P) .both = do
    let ipv6 ← getPlanIPs m (some P) .yes
    let ipv4 ← getPlanIPs m (some P) .no
    return ipv6 ++ ipv4
  fails : Fails m s D .both ↔ Fails m s D .no ∨ Fails m s D .yes
  right : ∀ ips, getDomainIPs m s (some D) .both = .ok (.ok ips) → ips.filter JsVal.truthy = addresses D ∧
    Usable m P false (prop D.fields "sub_ipv4") ∧
      ((prop D.fields "sub_ipv6").truthy = true → Usable m P true (prop D.fields "sub_ipv6"))
  invalid : ∃ l, getAppsWithInvalidIP m s = .ok l ∧ ∀ d, d ∈ l ↔ ∃ E, s.getDomain? d = some E ∧ HasGone m E

/-- A domain that the traversal from the root plan finds. -/
def FoundInRoot (d : String) : Prop := ∃ u ∈ s.seats unlimitedPlanName, d ∈ s.ownDomains u ∨
  ∃ o ∈ s.ownPlans u, ∃ q ∈ Hierarchy.descend s.subs 99999 o, ∃ v ∈ s.seats q, d ∈ s.ownDomains v

/-- The states in which testing the mode for truth does no harm. -/
structure PlainAddresses (P : Plan) (D : Domain) : Prop where
  plan : P.name = unlimitedPlanName ∨ ((poolOf P false).truthy = true ∧
    ∀ ip ∈ Machine.items (poolOf P false), ip ∉ m.ifcv4_list.map JsVal.str)
  domain : ((prop D.fields "sub_ipv6").truthy = true ∧ ¬Usable m P true (prop D.fields "sub_ipv6") ∧
      ¬(P.name = unlimitedPlanName ∧ Usable m P false (prop D.fields "sub_ipv6"))) ∨
    (Usable m P false (prop D.fields "sub_ipv4") ∧
      ((prop D.fields "sub_ipv6").truthy = true → Usable m P true (prop D.fields "sub_ipv6")))
  root : unlimitedPlanName ∈ s.plans
  unset : ∀ d E, s.getDomain? d = some E → FoundInRoot s d → ∀ k ∈ ["sub_ipv4", "sub_ipv6"],
    (prop E.fields k).truthy = false → ¬OnHost m (prop E.fields k) → HasGone m E
  found : ∀ d E, s.getDomain? d = some E → HasGone m E → FoundInRoot s d

section Values
variable {m : Machine} {l : List JsVal} {list : List String} {v : JsVal}

theorem jsonCopy_falsy (h : v.truthy = false) : v.jsonCopy.truthy = false := by
  unfold JsVal.jsonCopy
  split
  · rfl
  · rfl
  · exact h
  · exact h
  · rfl
  · exact h
  · cases h
  · cases h

theorem jsonItems_texts (h : ∀ v ∈ l, ∃ a, v = .str a) : JsVal.jsonItems l = l := by
  induction l with
  | nil => rfl
  | cons v l ih =>
    obtain ⟨a, rfl⟩ := h v List.mem_cons_self
    rw [JsVal.jsonItems, ih fun w hw => h w (List.mem_cons_of_mem _ hw), JsVal.jsonCopy]

theorem strictEq_text {a : String} : JsVal.strictEq v (.str a) = true ↔ v = .str a := by
  cases v with
  | str b =>
    rw [JsVal.strictEq, decide_eq_true_iff]
    exact ⟨congrArg _, JsVal.str.inj⟩
  | num n =>
    have hnum : JsVal.strictEq (.num n) (.str a) = false := by cases n <;> rfl
    exact iff_of_false (fun h => by rw [hnum] at h; cases h) (fun h => by cases h)
  | _ => exact iff_of_false (fun h => by cases h) (fun h => by cases h)

theorem listed_iff : listed list v = true ↔ v ∈ list.map JsVal.str := by
  rw [listed, List.any_eq_true, List.mem_map]
  exact exists_congr fun a => and_congr_right fun _ => strictEq_text.trans eq_comm

theorem among_iff (h : ∀ v ∈ l, ∃ a, v = .str a) : among l v = true ↔ v ∈ l := by
  rw [among, List.any_eq_true]
  constructor
  · rintro ⟨ip, hip, he⟩
    obtain ⟨a, rfl⟩ := h ip hip
    rw [strictEq_text.1 he]
    exact hip
  · intro hv
    obtain ⟨a, rfl⟩ := h v hv
    exact ⟨_, hv, strictEq_text.2 rfl⟩

theorem texts_map : ∀ v ∈ list.map JsVal.str, ∃ a, v = .str a := by
  intro v hv
  obtain ⟨a, -, rfl⟩ := List.mem_map.1 hv
  exact ⟨a, rfl⟩

theorem items_falsy (h : v.truthy = false) : Machine.items v = [] := by
  cases v with
  | str s =>
    have hs : s = "" := not_not.1 (of_decide_eq_false h)
    subst hs
    rfl
  | arr l => cases h
  | obj fs => cases h
  | _ => rfl

end Values

section Plans
variable {m : Machine} {s : Store} {P : Plan} {D : Domain} {v : JsVal}

/-- The addresses of one kind that a plan offers. -/
def offered (m : Machine) (P : Plan) (six : Bool) : List JsVal :=
  if P.name = unlimitedPlanName then (hostIPs m six).map .str
  else (Machine.items (poolOf P six)).filter (listed (hostIPs m six))

theorem mem_offered {six : Bool} : v ∈ offered m P six ↔ Usable m P six v := by
  unfold offered Usable
  by_cases hroot : P.name = unlimitedPlanName
  · rw [if_pos hroot]
    exact ⟨fun h => ⟨h, .inl hroot⟩, fun h => h.1⟩
  · rw [if_neg hroot, List.mem_filter, listed_iff, and_comm]
    exact and_congr_right fun _ => (or_iff_right hroot).symm

theorem texts_offered {six : Bool} : ∀ v ∈ offered m P six, ∃ a, v = .str a :=
  fun v hv => texts_map v (mem_offered.1 hv).1

theorem offered_falsy {six : Bool} (hroot : P.name ≠ unlimitedPlanName) (h : (poolOf P six).truthy = false) :
    offered m P six = [] := by
  rw [offered, if_neg hroot, items_falsy h]
  rfl

theorem getPlanIPs_yes : getPlanIPs m (some P) .yes = .ok (offered m P true) := by
  by_cases hroot : P.name = unlimitedPlanName
  · rw [getPlanIPs, if_pos hroot, offered, if_pos hroot]
    exact congrArg Except.ok ((List.append_nil _).trans (jsonItems_texts texts_map))
  · have hpool : prop P.fields "plan_ipv6_pool" = poolOf P true := rfl
    simp only [getPlanIPs, if_neg hroot, IpMode.truthy, if_true, hpool]
    cases ht : (poolOf P true).truthy with
    | false => rw [offered_falsy hroot ht]; rfl
    | true =>
      have hoffered : (Machine.items (poolOf P true)).filter (fun ip => true && listed m.ifcv6_list ip) =
          offered m P true := by
        rw [offered, if_neg hroot]
        rfl
      rw [hoffered]
      exact congrArg Except.ok ((List.append_nil _).trans (jsonItems_texts texts_offered))

theorem getPlanIPs_no : getPlanIPs m (some P) .no =
    if P.name = unlimitedPlanName ∨ (poolOf P false).truthy = true then .ok (offered m P false)
    else .error "PlanParentNoIPv4Pool" := by
  by_cases hroot : P.name = unlimitedPlanName
  · rw [getPlanIPs, if_pos hroot, offered, if_pos hroot, if_pos (.inl hroot)]
    exact congrArg Except.ok (jsonItems_texts texts_map)
  · have hrun : getPlanIPs m (some P) .no = if !(poolOf P false).truthy then .error "PlanParentNoIPv4Pool"
        else .ok (JsVal.jsonItems ((Machine.items (poolOf P false)).filter fun ip => !false && listed m.ifcv4_list ip)) := by
      rw [getPlanIPs, if_neg hroot]
      rfl
    have hoffered : (Machine.items (poolOf P false)).filter (fun ip => !false && listed m.ifcv4_list ip) =
        offered m P false := by
      rw [offered, if_neg hroot]
      rfl
    rw [hrun, hoffered, jsonItems_texts texts_offered]
    cases (poolOf P false).truthy with
    | false =>
      have hno : ¬(P.name = unlimitedPlanName ∨ false = true) := by simp [hroot]
      rw [if_neg hno]
      rfl
    | true =>
      rw [if_pos (Or.inr rfl : P.name = unlimitedPlanName ∨ true = true)]
      rfl

/-- For both kinds only the pool of the second one is looked at. -/
theorem getPlanIPs_both : getPlanIPs m (some P) .both =
    .ok (offered m P true ++ if P.name = unlimitedPlanName then offered m P false else []) := by
  by_cases hroot : P.name = unlimitedPlanName
  · rw [getPlanIPs, if_pos hroot, offered, offered, if_pos hroot, if_pos hroot, if_pos hroot]
    exact congrArg Except.ok (congrArg₂ _ (jsonItems_texts texts_map) (jsonItems_texts texts_map))
  · have hpool : prop P.fields "plan_ipv6_pool" = poolOf P true := rfl
    rw [if_neg hroot, List.append_nil]
    simp only [getPlanIPs, if_neg hroot, IpMode.truthy, if_true, hpool]
    cases ht : (poolOf P true).truthy with
    | false => rw [offered_falsy hroot ht]; rfl
    | true =>
      have hoffered : (Machine.items (poolOf P true)).filter (fun ip => true && listed m.ifcv6_list ip) =
          offered m P true := by
        rw [offered, if_neg hroot]
        rfl
      have hnone : (Machine.items (poolOf P true)).filter (fun ip => !true && listed m.ifcv4_list ip) = [] :=
        List.filter_eq_nil_iff.2 fun ip _ h => by cases h
      rw [hoffered, hnone]
      exact congrArg Except.ok ((List.append_nil _).trans (jsonItems_texts texts_offered))

/-- The list that the nginx configuration is written from is the answer for both kinds. -/
theorem getPlanIPs_machine : getPlanIPs m (some P) .both = .ok ((m.getPlanIPs P).map JsVal.str) := by
  rw [getPlanIPs_both, Machine.getPlanIPs]
  by_cases hroot : P.name = unlimitedPlanName
  · rw [if_pos hroot, if_pos hroot, offered, offered, if_pos hroot, if_pos hroot, Machine.getAllIPs, List.map_append]
    rfl
  · rw [if_neg hroot, if_neg hroot, List.append_nil, offered, if_neg hroot]
    congr 1
    change (Machine.items (prop P.fields "plan_ipv6_pool")).filter (listed m.ifcv6_list) = _
    induction Machine.items (prop P.fields "plan_ipv6_pool") with
    | nil => rfl
    | cons v l ih =>
      rw [List.filter_cons, List.filterMap_cons, ih]
      cases v with
      | str a =>
        by_cases ha : a ∈ m.ifcv6_list
        · rw [if_pos (listed_iff.2 (List.mem_map_of_mem ha))]
          dsimp only
          rw [if_pos ha]
          rfl
        · rw [if_neg (fun h => ha (by simpa using listed_iff.1 h))]
          dsimp only
          rw [if_neg ha]
      | _ =>
        rw [if_neg]
        intro h
        obtain ⟨a, he⟩ := texts_map _ (listed_iff.1 h)
        cases he

section Domains
variable (hplan : getPlanByDomainName s D.name = .ok (some P))
include hplan

theorem getDomainIPs_error {v6 : IpMode} {err : String} (h : getPlanIPs m (some P) v6 = .error err) :
    getDomainIPs m s (some D) v6 = .ok (.error err) := by
  unfold getDomainIPs
  dsimp only
  rw [hplan, Collect.ok_bind, h]
  rfl

/-- The checks that are made once the addresses of the plan are known. -/
theorem getDomainIPs_ok {v6 : IpMode} {ips : List JsVal} (h : getPlanIPs m (some P) v6 = .ok ips) :
    getDomainIPs m s (some D) v6 =
      if !v6.truthy && !among ips (prop D.fields "sub_ipv4") then
        .ok (.error ("IPDoesNotExists|" ++ (prop D.fields "sub_ipv4").toKey))
      else if v6.truthy && (prop D.fields "sub_ipv6").truthy && !among ips (prop D.fields "sub_ipv6") then
        .ok (.error ("IPDoesNotExists|" ++ (prop D.fields "sub_ipv6").toKey))
      else .ok (.ok (concat [prop D.fields "sub_ipv4"] [prop D.fields "sub_ipv6"] v6)) := by
  unfold getDomainIPs
  dsimp only
  rw [hplan, Collect.ok_bind, h]
  dsimp only
  split
  · rfl
  · split
    · rfl
    · rfl

/-- The nginx configuration is written from the answer for both kinds, and not if that is an error. -/
theorem getDomainIPs_machine : s.getDomainIPs m D = (getDomainIPs m s (some D) .both).map fun r =>
    r.toOption.map fun _ => [prop D.fields "sub_ipv6", prop D.fields "sub_ipv4"] := by
  rw [getDomainIPs_ok hplan getPlanIPs_machine, Store.getDomainIPs]
  rw [getPlanByDomainName] at hplan
  cases hD : s.getDomain? D.name with
  | none =>
    rw [hD] at hplan
    cases hplan
  | some E =>
    rw [hD] at hplan
    dsimp only at hplan ⊢
    cases hU : s.users.get? E.owner with
    | none =>
      rw [hU] at hplan
      cases hplan
    | some U =>
      rw [hU] at hplan
      dsimp only at hplan ⊢
      rw [Except.ok.inj hplan]
      dsimp only
      have hsame : among ((m.getPlanIPs P).map JsVal.str) (prop D.fields "sub_ipv6") =
          (m.getPlanIPs P).any fun ip => (prop D.fields "sub_ipv6").strictEq (.str ip) := by
        rw [among, List.any_map]
        rfl
      rw [← hsame]
      have hboth : IpMode.both.truthy = true := rfl
      rw [hboth, Bool.not_true, Bool.false_and, if_neg Bool.false_ne_true, Bool.true_and]
      split <;> rfl

theorem fails_no : Fails m s D .no ↔ ¬Usable m P false (prop D.fields "sub_ipv4") := by
  have hplanIPs := getPlanIPs_no (m := m) (P := P)
  rw [← mem_offered]
  by_cases hok : P.name = unlimitedPlanName ∨ (poolOf P false).truthy = true
  · rw [if_pos hok] at hplanIPs
    rw [Fails, getDomainIPs_ok hplan hplanIPs, ← among_iff texts_offered]
    cases among (offered m P false) (prop D.fields "sub_ipv4") with
    | true => exact iff_of_false (by rintro ⟨err, he⟩; cases he) (fun h => h rfl)
    | false => exact iff_of_true ⟨_, rfl⟩ Bool.false_ne_true
  · rw [if_neg hok] at hplanIPs
    rw [not_or, Bool.not_eq_true] at hok
    apply iff_of_true
    · exact ⟨_, getDomainIPs_error hplan hplanIPs⟩
    · rw [offered_falsy hok.1 hok.2]
      exact List.not_mem_nil

theorem fails_truthy {v6 : IpMode} {ips : List JsVal} (hv6 : v6.truthy = true) (h : getPlanIPs m (some P) v6 = .ok ips)
    (htexts : ∀ v ∈ ips, ∃ a, v = .str a) : Fails m s D v6 ↔
      (prop D.fields "sub_ipv6").truthy = true ∧ prop D.fields "sub_ipv6" ∉ ips := by
  rw [Fails, getDomainIPs_ok hplan h, ← among_iff htexts, hv6]
  cases (prop D.fields "sub_ipv6").truthy with
  | false => exact iff_of_false (by rintro ⟨err, he⟩; cases he) (fun h => by cases h.1)
  | true =>
    cases among ips (prop D.fields "sub_ipv6") with
    | true => exact iff_of_false (by rintro ⟨err, he⟩; cases he) (fun h => h.2 rfl)
    | false => exact iff_of_true ⟨_, rfl⟩ ⟨rfl, Bool.false_ne_true⟩

theorem fails_yes : Fails m s D .yes ↔
    (prop D.fields "sub_ipv6").truthy = true ∧ ¬Usable m P true (prop D.fields "sub_ipv6") := by
  rw [fails_truthy hplan rfl getPlanIPs_yes texts_offered, mem_offered]

theorem fails_both : Fails m s D .both ↔ (prop D.fields "sub_ipv6").truthy = true ∧
    ¬Usable m P true (prop D.fields "sub_ipv6") ∧
      ¬(P.name = unlimitedPlanName ∧ Usable m P false (prop D.fields "sub_ipv6")) := by
  have htexts : ∀ v ∈ offered m P true ++ (if P.name = unlimitedPlanName then offered m P false else []),
      ∃ a, v = .str a := by
    intro v hv
    rcases List.mem_append.1 hv with hv | hv
    · exact texts_offered v hv
    · split at hv
      · exact texts_offered v hv
      · cases hv
  rw [fails_truthy hplan rfl getPlanIPs_both htexts, List.mem_append, not_or, mem_offered]
  by_cases hroot : P.name = unlimitedPlanName
  · rw [if_pos hroot, mem_offered, and_iff_right hroot]
  · rw [if_neg hroot]
    simp [hroot]

/-- An answer for both kinds holds the two fields as they are. -/
theorem both_fields {ips : List JsVal} (h : getDomainIPs m s (some D) .both = .ok (.ok ips)) :
    ips = [(prop D.fields "sub_ipv6").jsonCopy, (prop D.fields "sub_ipv4").jsonCopy] := by
  obtain ⟨l, hl⟩ : ∃ l, getPlanIPs m (some P) .both = .ok l := ⟨_, getPlanIPs_both⟩
  rw [getDomainIPs_ok hplan hl] at h
  split at h
  · cases h
  · split at h
    · cases h
    · cases h
      rfl

end Domains

/-- For both kinds the plan's addresses are all there where its IPv4 pool has none of the host's. -/
theorem plan_iff : (getPlanIPs m (some P) .both = do
      let ipv6 ← getPlanIPs m (some P) .yes
      let ipv4 ← getPlanIPs m (some P) .no
      return ipv6 ++ ipv4) ↔ P.name = unlimitedPlanName ∨ ((poolOf P false).truthy = true ∧
        ∀ ip ∈ Machine.items (poolOf P false), ip ∉ m.ifcv4_list.map JsVal.str) := by
  rw [getPlanIPs_both, getPlanIPs_yes, getPlanIPs_no, Collect.ok_bind]
  by_cases hroot : P.name = unlimitedPlanName
  · rw [if_pos hroot, if_pos (.inl hroot)]
    exact iff_of_true rfl (.inl hroot)
  · rw [if_neg hroot, List.append_nil]
    cases ht : (poolOf P false).truthy with
    | false =>
      have hno : ¬(P.name = unlimitedPlanName ∨ false = true) := by simp [hroot]
      rw [if_neg hno]
      apply iff_of_false
      · intro he
        cases he
      · rintro (hr | ⟨hf, -⟩)
        · exact hroot hr
        · cases hf
    | true =>
      rw [if_pos (.inr rfl), Collect.ok_bind, or_iff_right hroot, and_iff_right rfl]
      have hempty : offered m P false = [] ↔
          ∀ ip ∈ Machine.items (poolOf P false), ip ∉ m.ifcv4_list.map JsVal.str := by
        rw [offered, if_neg hroot, List.filter_eq_nil_iff]
        exact forall₂_congr fun ip _ => not_congr listed_iff
      rw [← hempty]
      constructor
      · intro he
        exact List.self_eq_append_right.1 (Except.ok.inj he)
      · intro he
        rw [he, List.append_nil]
        rfl

end Plans

section Apps
variable {m : Machine} {s : Store} {d : String} {E : Domain}

/-- Every domain has the name that it is kept under. -/
def DomainsNamed (s : Store) : Prop := ∀ d D, s.getDomain? d = some D → D.name = d

theorem domainsNamed_of_adds (h : Reached (fun _ c => Adds c) s) : DomainsNamed s := by
  apply h.keeps (P := DomainsNamed)
  · intro d D hD
    cases hD
  · intro t c ht hc
    cases c with
    | addPlan owner name opts =>
      change DomainsNamed (t.addPlan owner name opts).1
      rcases hr : t.addPlan owner name opts with ⟨t', r⟩
      rcases addPlan_cases hr with ⟨rfl, -⟩ | ⟨-, -, ⟨-, plan, -, rfl⟩ |
        ⟨o, user, parent, plan, -, -, -, -, -, rfl⟩⟩
      · exact ht
      · exact ht
      · exact ht
    | addUser p name opts =>
      change DomainsNamed (t.addUser p name opts).1
      rcases hr : t.addUser p name opts with ⟨t', r⟩
      rcases addUser_cases hr with ⟨rfl, -⟩ | ⟨-, -, parent, -, -, rfl⟩
      · exact ht
      · exact ht
    | addDomain o name opts =>
      change DomainsNamed (t.addDomain o name opts).1
      rcases hr : t.addDomain o name opts with ⟨t', r⟩
      rcases addDomain_cases hr with ⟨rfl, -⟩ | ⟨-, -, user, plan, -, -, -, rfl⟩
      · exact ht
      · intro d D hD
        rw [attachDomain, getDomain?_setDomain] at hD
        split at hD
        · rename_i hd
          cases hD
          have hp : PlainOpts opts := hc
          rw [Domain.new, Domain.extend_name, hp.overlay _ _ (by simp), hd]
        · exact ht d D hD
    | _ => exact hc.elim

theorem getDomainsByPlanName_mem {l : List String} (h : s.getDomainsByPlanName unlimitedPlanName 100000 = .ok l) :
    d ∈ l ↔ FoundInRoot s d := by
  obtain ⟨users, husers, h⟩ := Collect.bind_ok.1 h
  have hseat : ∀ u, u ∈ users ↔ u ∈ s.seats unlimitedPlanName := by
    intro u
    rw [getUsersByPlanName_mem husers]
    simp [Hierarchy.descend]
  rw [Collect.mem_concatM h]
  constructor
  · rintro ⟨u, hu, a, ha, hd⟩
    exact ⟨u, (hseat u).1 hu, (getDomainsByUserName_mem ha).1 hd⟩
  · rintro ⟨u, hu, hd⟩
    obtain ⟨a, ha, -⟩ := Collect.concatM_part h u ((hseat u).2 hu)
    exact ⟨u, (hseat u).2 hu, a, ha, (getDomainsByUserName_mem ha).2 hd⟩

theorem among_all {v : JsVal} : among (getAllIPs m .both) v = true ↔ OnHost m v := by
  have hall : getAllIPs m .both = (m.ifcv6_list ++ m.ifcv4_list).map JsVal.str := by
    rw [List.map_append]
    exact congrArg₂ _ (jsonItems_texts texts_map) (jsonItems_texts texts_map)
  rw [hall, among_iff texts_map]
  rfl

/-- A domain is listed where one of its two fields is no address of the host. -/
def Reported (m : Machine) (E : Domain) : Prop := ∃ k ∈ ["sub_ipv4", "sub_ipv6"], ¬OnHost m (prop E.fields k)

theorem reported_iff : Reported m E ↔ HasGone m E ∨ ∃ k ∈ ["sub_ipv4", "sub_ipv6"],
    (prop E.fields k).truthy = false ∧ ¬OnHost m (prop E.fields k) := by
  have hset : HasGone m E ↔ ∃ k ∈ ["sub_ipv4", "sub_ipv6"],
      (prop E.fields k).truthy = true ∧ ¬OnHost m (prop E.fields k) := by
    unfold HasGone addresses
    simp only [List.mem_filter, List.mem_cons, List.not_mem_nil, or_false]
    constructor
    · rintro ⟨v, ⟨rfl | rfl, ht⟩, hgone⟩
      · exact ⟨"sub_ipv6", .inr rfl, ht, hgone⟩
      · exact ⟨"sub_ipv4", .inl rfl, ht, hgone⟩
    · rintro ⟨k, rfl | rfl, ht, hgone⟩
      · exact ⟨_, ⟨.inr rfl, ht⟩, hgone⟩
      · exact ⟨_, ⟨.inl rfl, ht⟩, hgone⟩
  rw [hset]
  constructor
  · rintro ⟨k, hk, hgone⟩
    cases ht : (prop E.fields k).truthy with
    | true => exact .inl ⟨k, hk, ht, hgone⟩
    | false => exact .inr ⟨k, hk, ht, hgone⟩
  · rintro (⟨k, hk, -, hgone⟩ | ⟨k, hk, -, hgone⟩)
    · exact ⟨k, hk, hgone⟩
    · exact ⟨k, hk, hgone⟩

theorem invalidApp_eq (hnamed : DomainsNamed s) (hE : s.getDomain? d = some E) :
    ∃ a, invalidApp s (getAllIPs m .both) d = .ok a ∧ ∀ x, x ∈ a ↔ x = d ∧ Reported m E := by
  have hreported : (!among (getAllIPs m .both) (prop E.fields "sub_ipv4") ||
      !among (getAllIPs m .both) (prop E.fields "sub_ipv6")) = true ↔ Reported m E := by
    rw [Bool.or_eq_true, Bool.not_eq_true', Bool.not_eq_true', ← Bool.not_eq_true, ← Bool.not_eq_true, among_all,
      among_all]
    simp [Reported]
  rw [invalidApp, hE]
  dsimp only
  by_cases hr : Reported m E
  · rw [if_pos (hreported.2 hr)]
    refine ⟨_, rfl, fun x => ?_⟩
    rw [List.mem_singleton, hnamed d E hE, and_iff_left hr]
  · rw [if_neg (mt hreported.1 hr)]
    exact ⟨_, rfl, fun x => iff_of_false List.not_mem_nil fun hx => hr hx.2⟩

theorem root_of_getAppsWithInvalidIP {l : List String} (h : getAppsWithInvalidIP m s = .ok l) :
    unlimitedPlanName ∈ s.plans := by
  obtain ⟨allDomains, hall, -⟩ := Collect.bind_ok.1 h
  obtain ⟨users, husers, -⟩ := Collect.bind_ok.1 hall
  by_contra hno
  rw [getUsersByPlanName, Dict.get?_eq_none.2 hno] at husers
  cases husers

/-- What the check of all domains lists. -/
theorem getAppsWithInvalidIP_eq (h : Integrity s) (hnamed : DomainsNamed s) (hroot : unlimitedPlanName ∈ s.plans) :
    ∃ l, getAppsWithInvalidIP m s = .ok l ∧
      ∀ d, d ∈ l ↔ ∃ E, s.getDomain? d = some E ∧ FoundInRoot s d ∧ Reported m E := by
  have hl := h.linked
  obtain ⟨allDomains, hall⟩ : ∃ l, s.getDomainsByPlanName unlimitedPlanName 100000 = .ok l := by
    apply Collect.bind_total (hl.getUsersByPlanName_total 1 hroot)
    intro users husers
    apply Collect.concatM_total
    intro u hu
    obtain ⟨q, -, hq⟩ := (getUsersByPlanName_mem husers).1 hu
    exact hl.getDomainsByUserName_total 99998 hq
  have hfound : ∀ d, d ∈ allDomains ↔ FoundInRoot s d := fun d => getDomainsByPlanName_mem hall
  have hthere : ∀ d, FoundInRoot s d → ∃ E, s.getDomain? d = some E := by
    have howned : ∀ d u, d ∈ s.ownDomains u → ∃ E, s.getDomain? d = some E := by
      intro d u hd
      obtain ⟨E, hE, -⟩ := domainOwner_eq.1 ((h.domain d u).2 hd)
      exact ⟨E, hE⟩
    rintro d ⟨u, -, hd | ⟨o, -, q, -, v, -, hd⟩⟩
    · exact howned d u hd
    · exact howned d v hd
  have hone : ∀ d ∈ allDomains, ∃ a, invalidApp s (getAllIPs m .both) d = .ok a := by
    intro d hd
    obtain ⟨E, hE⟩ := hthere d ((hfound d).1 hd)
    obtain ⟨a, ha, -⟩ := invalidApp_eq (m := m) hnamed hE
    exact ⟨a, ha⟩
  obtain ⟨l, hl'⟩ := Collect.concatM_total hone
  refine ⟨l, Collect.bind_ok.2 ⟨allDomains, hall, hl'⟩, fun d => ?_⟩
  rw [Collect.mem_concatM hl']
  constructor
  · rintro ⟨o, ho, a, ha, hd⟩
    obtain ⟨E, hE⟩ := hthere o ((hfound o).1 ho)
    obtain ⟨a', ha', hmem⟩ := invalidApp_eq (m := m) hnamed hE
    cases Except.ok.inj (ha.symm.trans ha')
    obtain ⟨rfl, hreported⟩ := (hmem d).1 hd
    exact ⟨E, hE, (hfound d).1 ho, hreported⟩
  · rintro ⟨E, hE, hf, hreported⟩
    obtain ⟨a, ha, hmem⟩ := invalidApp_eq (m := m) hnamed hE
    exact ⟨d, (hfound d).2 hf, a, ha, (hmem d).2 ⟨rfl, hreported⟩⟩

/-- The four functions agree just in the states where neither the mode nor an address that is not set
is taken for another. -/
theorem addressesAgree_iff {P : Plan} {D : Domain} (h : Integrity s) (hnamed : DomainsNamed s)
    (hplan : getPlanByDomainName s D.name = .ok (some P)) :
    AddressesAgree m s P D ↔ PlainAddresses m s P D := by
  constructor
  · rintro ⟨hboth, hfails, -, hinvalid⟩
    have hroot : unlimitedPlanName ∈ s.plans := by
      obtain ⟨l, hl, -⟩ := hinvalid
      exact root_of_getAppsWithInvalidIP hl
    obtain ⟨l, hl, hmem⟩ := getAppsWithInvalidIP_eq (m := m) h hnamed hroot
    obtain ⟨l', hl', hmem'⟩ := hinvalid
    cases Except.ok.inj (hl.symm.trans hl')
    have hlisted : ∀ d E, s.getDomain? d = some E → (FoundInRoot s d ∧ Reported m E ↔ HasGone m E) := by
      intro d E hE
      have hiff := (hmem d).symm.trans (hmem' d)
      rw [hE] at hiff
      simpa using hiff
    refine ⟨plan_iff.1 hboth, ?_, hroot, ?_, ?_⟩
    · rw [fails_both hplan, fails_no hplan, fails_yes hplan] at hfails
      by_cases hb : (prop D.fields "sub_ipv6").truthy = true ∧ ¬Usable m P true (prop D.fields "sub_ipv6") ∧
          ¬(P.name = unlimitedPlanName ∧ Usable m P false (prop D.fields "sub_ipv6"))
      · exact .inl hb
      · have hnone := mt hfails.2 hb
        rw [not_or, not_not, not_and_not_right] at hnone
        exact .inr hnone
    · intro d E hE hf k hk hfalsy hoff
      exact (hlisted d E hE).1 ⟨hf, k, hk, hoff⟩
    · intro d E hE hgone
      exact ((hlisted d E hE).2 hgone).1
  · rintro ⟨hboth, hdomain, hroot, hunset, hfound⟩
    refine ⟨plan_iff.2 hboth, ?_, ?_, ?_⟩
    · rw [fails_both hplan, fails_no hplan, fails_yes hplan]
      rcases hdomain with hb | ⟨hfour, hsix⟩
      · exact iff_of_true hb (.inr ⟨hb.1, hb.2.1⟩)
      · apply iff_of_false
        · rintro ⟨hset, hno, -⟩
          exact hno (hsix hset)
        · rintro (hno | ⟨hset, hno⟩)
          · exact hno hfour
          · exact hno (hsix hset)
    · intro ips hips
      have hok : ¬Fails m s D .both := by
        rintro ⟨err, he⟩
        rw [he] at hips
        cases hips
      rcases hdomain with hb | ⟨hfour, hsix⟩
      · exact absurd ((fails_both hplan).2 hb) hok
      · refine ⟨?_, hfour, hsix⟩
        obtain ⟨a, ha⟩ := texts_map _ hfour.1
        rw [both_fields hplan hips, addresses, ha]
        cases ht : (prop D.fields "sub_ipv6").truthy with
        | true =>
          obtain ⟨b, hb⟩ := texts_map _ (hsix ht).1
          rw [hb]
          rfl
        | false =>
          have hcopy := jsonCopy_falsy ht
          have hleft : [(prop D.fields "sub_ipv6").jsonCopy, .str a].filter JsVal.truthy = [.str a].filter JsVal.truthy :=
            List.filter_cons_of_neg (by simp [hcopy])
          have hright : [prop D.fields "sub_ipv6", .str a].filter JsVal.truthy = [.str a].filter JsVal.truthy :=
            List.filter_cons_of_neg (by simp [ht])
          exact hleft.trans hright.symm
    · obtain ⟨l, hl, hmem⟩ := getAppsWithInvalidIP_eq (m := m) h hnamed hroot
      refine ⟨l, hl, fun d => ?_⟩
      rw [hmem d]
      refine exists_congr fun E => and_congr_right fun hE => ?_
      constructor
      · rintro ⟨hf, hreported⟩
        rcases reported_iff.1 hreported with hgone | ⟨k, hk, hfalsy, hoff⟩
        · exact hgone
        · exact hunset d E hE hf k hk hfalsy hoff
      · intro hgone
        exact ⟨hfound d E hE hgone, reported_iff.2 (.inl hgone)⟩

end Apps

/-- A plan whose only IPv4 address is `10.0.0.9`, and a domain at that address. -/
def vanishedCalls : List Call :=
  [.addUser unlimitedPlanName "ann" .empty,
    .addPlan (some "ann") "gold" ((planOpts 5 5).set "plan_ipv4_pool" (.arr [.str "10.0.0.9"])),
    .addUser "gold" "bob" .empty,
    .addDomain "bob" "bob.org" (Dict.ofList [("sub_ipv4", .str "10.0.0.9")])]

theorem reached_vanishedCalls : Reached (fun _ c => Adds c) (installed.run vanishedCalls) := by
  apply Runs.Reached.run .start
  refine ⟨⟨by decide, by decide, plainOpts_empty⟩, ⟨by decide, by decide, by decide, ?_⟩,
    ⟨by decide, by decide, plainOpts_empty⟩, ?_, trivial⟩
  · intro k hk _
    rcases List.mem_pair.1 hk with rfl | rfl
    · exact ⟨5, rfl⟩
    · exact ⟨5, rfl⟩
  · change PlainOpts _
    decide

theorem bob_of_vanishedCalls : ∃ P D, (installed.run vanishedCalls).getDomain? "bob.org" = some D ∧
    getPlanByDomainName (installed.run vanishedCalls) D.name = .ok (some P) := by
  have hD : ((installed.run vanishedCalls).getDomain? "bob.org").map Domain.name = some "bob.org" := by decide +kernel
  obtain ⟨D, hD, hname⟩ := Option.map_eq_some_iff.1 hD
  have hP : ((getPlanByDomainName (installed.run vanishedCalls) "bob.org").toOption.join).map Plan.name = some "gold" := by
    decide +kernel
  obtain ⟨P, hP, -⟩ := Option.map_eq_some_iff.1 hP
  refine ⟨P, D, hD, ?_⟩
  rw [hname]
  cases hr : getPlanByDomainName (installed.run vanishedCalls) "bob.org" with
  | error e =>
    rw [hr] at hP
    cases hP
  | ok r =>
    rw [hr] at hP
    exact congrArg Except.ok hP

theorem addressesAgree_iff_sample : ∃ P D, (installed.run vanishedCalls).getDomain? "bob.org" = some D ∧
    (AddressesAgree dualStack (installed.run vanishedCalls) P D ↔
      PlainAddresses dualStack (installed.run vanishedCalls) P D) := by
  obtain ⟨P, D, hD, hplan⟩ := bob_of_vanishedCalls
  exact ⟨P, D, hD, addressesAgree_iff (consistent_of_adds reached_vanishedCalls).integrity
    (domainsNamed_of_adds reached_vanishedCalls) hplan⟩

/-- The address has gone from the host, which the answer for IPv4 says and the one for both does not. -/
theorem both_overlooks_ipv4 : ¬∀ (m : Machine) (s : Store) (P : Plan) (D : Domain), Integrity s → DomainsNamed s →
    getPlanByDomainName s D.name = .ok (some P) → AddressesAgree m s P D := by
  intro h
  obtain ⟨P, D, hD, hplan⟩ := bob_of_vanishedCalls
  have hagree := h dualStack _ P D (consistent_of_adds reached_vanishedCalls).integrity
    (domainsNamed_of_adds reached_vanishedCalls) hplan
  have hfails : ∀ v6 : IpMode, Fails dualStack (installed.run vanishedCalls) D v6 ↔
      ((getDomainIPs dualStack (installed.run vanishedCalls) (some D) v6).toOption.map fun r => !r.isOk) = some true := by
    intro v6
    cases hr : getDomainIPs dualStack (installed.run vanishedCalls) (some D) v6 with
    | error e => simp [Fails, hr, Except.toOption]
    | ok r => cases r <;> simp [Fails, hr, Except.toOption, Except.isOk, Except.toBool]
  have hiff := hagree.fails
  rw [hfails, hfails, hfails, ← hD] at hiff
  revert hiff
  decide +kernel

end IpTools
end JXPanel
