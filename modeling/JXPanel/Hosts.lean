import JXPanel.NginxConf
import JXPanel.Ports
import JXPanel.Spawner

namespace JXPanel
set_option autoImplicit true

/-- One or more labels with any character behind each, then a text that is as `close` asks. -/
def hostLabels (close : List Char → Bool) : Nat → List Char → Bool
  | 0, _ => false
  | n + 1, cs => (List.range 61).any fun k =>
      isLabel (cs.take (k + 3)) && cs[k + 3]?.any isAny &&
        (close (cs.drop (k + 4)) || hostLabels close n (cs.drop (k + 4)))

def checkDomain (val : String) : Bool := hostLabels isTopLevel val.length val.toList

def checkSubDomain (val : String) : Bool := hostLabels List.isEmpty val.length val.toList

theorem take_get_drop {cs : List Char} {k : Nat} {c : Char} (h : cs[k]? = some c) :
    cs = cs.take k ++ c :: cs.drop (k + 1) := by
  obtain ⟨hk, hc⟩ := List.getElem?_eq_some_iff.1 h
  rw [← hc, List.getElem_cons_drop, List.take_append_drop]

/-- What is decided, as a language: the last character behind a label comes before a text that is as
`close` asks. -/
inductive HostLabels (close : List Char → Bool) : List Char → Prop
  | last (l : List Char) (c : Char) (t : List Char) (hl : isLabel l = true) (hc : isAny c = true)
      (ht : close t = true) : HostLabels close (l ++ c :: t)
  | more (l : List Char) (c : Char) (cs : List Char) (hl : isLabel l = true) (hc : isAny c = true)
      (hcs : HostLabels close cs) : HostLabels close (l ++ c :: cs)

theorem hostLabels_language {close : List Char → Bool} {n : Nat} {cs : List Char} (hn : cs.length ≤ n) :
    hostLabels close n cs = true ↔ HostLabels close cs := by
  constructor
  · clear hn
    intro h
    induction n generalizing cs with
    | zero => cases h
    | succ n ih =>
      obtain ⟨k, -, hk⟩ := List.any_eq_true.1 h
      rw [Bool.and_eq_true, Bool.and_eq_true, Bool.or_eq_true, Option.any_eq_true] at hk
      obtain ⟨⟨hlabel, c, hc, hany⟩, hrest⟩ := hk
      rw [take_get_drop hc]
      rcases hrest with htop | hmore
      · exact .last _ c _ hlabel hany htop
      · exact .more _ c _ hlabel hany (ih hmore)
  · intro h
    have hstep : ∀ (l : List Char) (c : Char) (t : List Char) (n : Nat), isLabel l = true → isAny c = true →
        (close t || hostLabels close n t) = true → hostLabels close (n + 1) (l ++ c :: t) = true := by
      intro l c t n hl hc ht
      have hlength : 3 ≤ l.length ∧ l.length ≤ 63 := by
        have hl' := hl
        simp only [isLabel, Bool.and_eq_true, decide_eq_true_iff] at hl'
        exact hl'.1.1.1
      have hk : l.length - 3 + 3 = l.length := by omega
      apply List.any_eq_true.2
      refine ⟨l.length - 3, List.mem_range.2 (by omega), ?_⟩
      have hbehind : l.length - 3 + 4 = l.length + 1 := by omega
      have hget : (l ++ c :: t)[l.length]? = some c := by simp
      have hdrop : (l ++ c :: t).drop (l.length + 1) = t := by simp
      rw [hk, hbehind, hget, hdrop, List.take_left, hl, ht, Option.any_some, hc]
      rfl
    induction h generalizing n with
    | last l c t hl hc ht =>
      cases n with
      | zero => simp at hn
      | succ n => exact hstep l c t n hl hc (by rw [ht, Bool.true_or])
    | more l c cs hl hc hcs ih =>
      cases n with
      | zero => simp at hn
      | succ n =>
        have hle : cs.length ≤ n := by
          rw [List.length_append, List.length_cons] at hn
          omega
        exact hstep l c cs n hl hc (by rw [ih hle, Bool.or_true])

theorem checkDomain_language {val : String} : checkDomain val = true ↔ HostLabels isTopLevel val.toList :=
  hostLabels_language (le_of_eq String.length_toList)

theorem checkSubDomain_language {val : String} : checkSubDomain val = true ↔ HostLabels List.isEmpty val.toList :=
  hostLabels_language (le_of_eq String.length_toList)

/-- The validator decides the language that the commands are built on. -/
theorem checkDomain_iff {val : String} : checkDomain val = true ↔ CheckDomain val.toList := by
  rw [checkDomain_language]
  generalize val.toList = cs
  constructor
  · intro h
    induction h with
    | last l c t hl hc ht => exact .last l c t hl hc ht
    | more l c cs hl hc hcs ih => exact .more l c cs hl hc ih
  · intro h
    induction h with
    | last l c t hl hc ht => exact .last l c t hl hc ht
    | more l c cs hl hc hcs ih => exact .more l c cs hl hc ih

/-- Host names are compared without regard to letter case. -/
def lowered (d : String) : List Char := d.toList.map Char.toLower

def withoutWww (val : String) : String :=
  if (val.toList.take 4).map Char.toLower = "www.".toList then String.ofList (val.toList.drop 4) else val

namespace Store

/-- `domains * ppd + ppd`. A number of ports that is a text is joined to the product. -/
def neededPorts (domains : Nat) (ppd : JsVal) : JsVal :=
  match ppd with
  | .num n => .num ((n.times domains).plus n)
  | .bool b => .num (.int (domains * b.toNat + b.toNat))
  | v => .str ((v.toNumber.times domains).toKey ++ v.toKey)

/-- The range has ports for the domains and for one more. -/
def portsSuffice (s : Store) : Bool :=
  !(JsVal.num (.int (s.portRange.2 - s.portRange.1))).lt
    (neededPorts s.getAllDomains.length s.getPortsPerDomain)

/-- `Domain.validate`: the name that is stored, if the value is accepted. -/
def acceptDomain (s : Store) (val : String) : Option String :=
  if !checkDomain val then none
  else
    let val := withoutWww val
    if (s.getDomain? val).isSome then none
    else if !s.portsSuffice then none
    else some val

/-- `SubDomain.validate` in the form for a domain below `main_domain`. -/
def acceptSubDomain (s : Store) (main_domain val : String) : Option String :=
  if !checkSubDomain val then none
  else
    let val := withoutWww val
    if main_domain = "" then none
    else if main_domain.toList.isSuffixOf val.toList then none
    else
      let val := val ++ "." ++ main_domain
      if (s.getDomain? val).isSome then none
      else if !s.portsSuffice then none
      else some val

end Store

/-- The requests that add domains or take them away. -/
inductive HostRequest
  | addDomain (username val : String) (json : Obj) (appCreateHomeDir : Js (Option String))
  | addSubDomain (username main_domain val : String) (json : Obj) (appCreateHomeDir : Js (Option String))
  | deleteDomain (name : String)
  | deleteUser (name : String)
  | deletePlan (name : String)

namespace Store

/-- The name that a request is to store, if the validator accepts it. -/
def newDomain (s : Store) : HostRequest → Option String
  | .addDomain _ val _ _ => s.acceptDomain val
  | .addSubDomain _ main_domain val _ _ => s.acceptSubDomain main_domain val
  | _ => none

/-- The form is stored with the name that the validator has left in it. -/
def addNamed (s : Store) (name : Option String) (username : String) (json : Obj)
    (appCreateHomeDir : Js (Option String)) : Store :=
  match name with
  | none => s
  | some name => (s.sessionAddDomain username (json.set "name" (.str name)) appCreateHomeDir).1

def host (s : Store) (c : HostRequest) : Store :=
  match c with
  | .addDomain username _ json home => s.addNamed (s.newDomain c) username json home
  | .addSubDomain username _ _ json home => s.addNamed (s.newDomain c) username json home
  | .deleteDomain name => (s.deleteDomain name).1
  | .deleteUser name => (s.deleteUser name).1
  | .deletePlan name => (s.deletePlan name).1

/-- No two domains have a server name in common. -/
def HostsApart (s : Store) : Prop :=
  ∀ d ∈ s.domains.keys, ∀ e ∈ s.domains.keys, d ≠ e →
    ∀ x ∈ serverNames d, ∀ y ∈ serverNames e, lowered x ≠ lowered y

end Store

/-- One name is the other one, or the other one with `www.` or `ipv4.` before it. -/
def Alias (d e : String) : Prop :=
  lowered d = lowered e ∨
    (lowered d = "www.".toList ++ lowered e ∨ lowered d = "ipv4.".toList ++ lowered e) ∨
    (lowered e = "www.".toList ++ lowered d ∨ lowered e = "ipv4.".toList ++ lowered d)

instance (d e : String) : Decidable (Alias d e) :=
  inferInstanceAs (Decidable (_ ∨ (_ ∨ _) ∨ (_ ∨ _)))

/-- The name that a request is to store is no alias of a stored one. -/
def Store.NoAlias (s : Store) (c : HostRequest) : Prop :=
  ∀ name ∈ s.newDomain c, ∀ e ∈ s.domains.keys, name ≠ e → ¬Alias name e

theorem Alias.symm (h : Alias d e) : Alias e d := by
  rcases h with h | h | h
  · exact .inl h.symm
  · exact .inr (.inr h)
  · exact .inr (.inl h)

theorem lowered_append (a b : String) : lowered (a ++ b) = lowered a ++ lowered b := by
  rw [lowered, String.toList_append, List.map_append]
  rfl

theorem lowered_www (d : String) : lowered ("www." ++ d) = "www.".toList ++ lowered d :=
  lowered_append "www." d

theorem lowered_ipv4 (d : String) : lowered ("ipv4." ++ d) = "ipv4.".toList ++ lowered d :=
  lowered_append "ipv4." d

theorem mem_serverNames {x d : String} :
    x ∈ serverNames d ↔ x = d ∨ x = "www." ++ d ∨ x = "ipv4." ++ d := by
  rw [serverNames, List.mem_cons, List.mem_cons, List.mem_singleton]

/-- Two names have a server name in common just when one is an alias of the other. -/
theorem serverNames_apart_iff (d e : String) :
    (∀ x ∈ serverNames d, ∀ y ∈ serverNames e, lowered x ≠ lowered y) ↔ ¬Alias d e := by
  have hself : ∀ d, d ∈ serverNames d := fun d => mem_serverNames.2 (.inl rfl)
  have hwww : ∀ d, "www." ++ d ∈ serverNames d := fun d => mem_serverNames.2 (.inr (.inl rfl))
  have hipv4 : ∀ d, "ipv4." ++ d ∈ serverNames d := fun d => mem_serverNames.2 (.inr (.inr rfl))
  constructor
  · rintro h (he | (he | he) | (he | he))
    · exact h d (hself d) e (hself e) he
    · exact h d (hself d) _ (hwww e) (he.trans (lowered_www e).symm)
    · exact h d (hself d) _ (hipv4 e) (he.trans (lowered_ipv4 e).symm)
    · exact h _ (hwww d) e (hself e) ((lowered_www d).trans he.symm)
    · exact h _ (hipv4 d) e (hself e) ((lowered_ipv4 d).trans he.symm)
  · intro h x hx y hy he
    apply h
    rcases mem_serverNames.1 hx with rfl | rfl | rfl
    · rcases mem_serverNames.1 hy with rfl | rfl | rfl
      · exact .inl he
      · exact .inr (.inl (.inl (he.trans (lowered_www e))))
      · exact .inr (.inl (.inr (he.trans (lowered_ipv4 e))))
    · rw [lowered_www] at he
      rcases mem_serverNames.1 hy with rfl | rfl | rfl
      · exact .inr (.inr (.inl he.symm))
      · rw [lowered_www] at he
        exact .inl (List.append_cancel_left he)
      · rw [lowered_ipv4] at he
        cases he
    · rw [lowered_ipv4] at he
      rcases mem_serverNames.1 hy with rfl | rfl | rfl
      · exact .inr (.inr (.inr he.symm))
      · rw [lowered_www] at he
        cases he
      · rw [lowered_ipv4] at he
        exact .inl (List.append_cancel_left he)

namespace Store
variable {s s' : Store} {x name : String}

theorem DomainsWithin.keys (h : DomainsWithin s s') (hx : x ∈ s'.domains.keys) : x ∈ s.domains.keys := by
  obtain ⟨v, hv⟩ := mem_getAllDomains.1 hx
  exact mem_getAllDomains.2 ⟨v, h x v hv⟩

/-- The only new domain is the one that the form names. -/
theorem keys_sessionAddDomain {username : String} {json : Obj} {home : Js (Option String)}
    (hx : x ∈ (s.sessionAddDomain username json home).1.domains.keys) :
    x = (prop json "name").toKey ∨ x ∈ s.domains.keys := by
  unfold sessionAddDomain at hx
  cases hfree : s.getFreePorts with
  | error f =>
    rw [hfree] at hx
    exact .inr hx
  | ok found =>
    rw [hfree] at hx
    cases found with
    | none => exact .inr hx
    | some arr =>
      dsimp only at hx
      split at hx
      · exact .inr hx
      · rcases hadd : s.addDomain username (prop json "name").toKey (withPorts json arr) with ⟨s', r⟩
        have hadded : ∀ y ∈ s'.domains.keys, y = (prop json "name").toKey ∨ y ∈ s.domains.keys := by
          intro y hy
          rcases addDomain_cases hadd with ⟨rfl, -⟩ | ⟨-, -, user, plan, -, -, -, rfl⟩
          · exact .inr hy
          · obtain ⟨v, hv⟩ := mem_getAllDomains.1 hy
            rw [attachDomain, setDomain, Dict.get?_set] at hv
            split at hv
            · exact .inl ‹_›
            · exact .inr (mem_getAllDomains.2 ⟨v, hv⟩)
        rw [hadd] at hx
        rcases r with f | (_ | err)
        · exact hadded x hx
        · rcases home with f | (_ | err)
          · exact hadded x hx
          · exact hadded x hx
          · have hgone := domainsWithin_deleteDomain s' (prop json "name").toKey
            dsimp only at hx
            rcases hdel : s'.deleteDomain (prop json "name").toKey with ⟨s'', r⟩
            rw [hdel] at hx hgone
            cases r with
            | error f => exact hadded x (hgone.keys hx)
            | ok rep => exact hadded x (hgone.keys hx)
        · exact hadded x hx

theorem keys_host {c : HostRequest} (hx : x ∈ (s.host c).domains.keys) :
    x ∈ s.newDomain c ∨ x ∈ s.domains.keys := by
  have hnamed : ∀ (new : Option String) username json home,
      x ∈ (s.addNamed new username json home).domains.keys → x ∈ new ∨ x ∈ s.domains.keys := by
    intro new username json home hx
    cases new with
    | none => exact .inr hx
    | some name =>
      rcases keys_sessionAddDomain hx with he | hold
      · rw [prop, Dict.get?_set_self] at he
        exact .inl (Option.mem_some_iff.2 he.symm)
      · exact .inr hold
  cases c with
  | addDomain username val json home => exact hnamed _ _ _ _ hx
  | addSubDomain username main_domain val json home => exact hnamed _ _ _ _ hx
  | deleteDomain name => exact .inr ((domainsWithin_deleteDomain s name).keys hx)
  | deleteUser name => exact .inr ((domainsWithin_deleteUser s name).keys hx)
  | deletePlan name => exact .inr ((domainsWithin_deletePlan s name).keys hx)

theorem hostsApart_iff (s : Store) : s.HostsApart ↔
    ∀ d ∈ s.domains.keys, ∀ e ∈ s.domains.keys, d ≠ e → ¬Alias d e := by
  constructor
  · intro h d hd e he hne
    exact (serverNames_apart_iff d e).1 (h d hd e he hne)
  · intro h d hd e he hne
    exact (serverNames_apart_iff d e).2 (h d hd e he hne)

theorem hostsApart_host (h : s.HostsApart) {c : HostRequest} (hc : s.NoAlias c) :
    (s.host c).HostsApart := by
  rw [hostsApart_iff] at h ⊢
  intro d hd e he hne
  rcases keys_host hd with hnew | hold
  · rcases keys_host he with hnew' | hold'
    · exact absurd (Option.mem_unique hnew hnew') hne
    · exact hc d hnew e hold' hne
  · rcases keys_host he with hnew' | hold'
    · exact fun ha => hc e hnew' d hold (Ne.symm hne) ha.symm
    · exact h d hold e hold' hne

/-- In a run that adds no alias of a stored domain, every server name is of one domain only. -/
theorem hosts_apart {start : Store} (hstart : start.domains.keys = [])
    (h : Runs.Reached host start NoAlias s) : s.HostsApart := by
  have hinit : start.HostsApart := by
    intro d hd
    rw [hstart] at hd
    cases hd
  exact h.keeps hinit fun t c ht hc => hostsApart_host ht hc

/-- A domain, one that differs from it, and one below it. -/
theorem hosts_apart_sample :
    HostsApart ([.addDomain "bob" "www.bob.org" .empty (.ok none),
      .addDomain "bob" "bob.net" .empty (.ok none),
      .addSubDomain "bob" "bob.org" "blog" .empty (.ok none)].foldl host hosting) := by
  have hempty : hosting.domains.keys = [] := rfl
  apply hosts_apart hempty
  apply Runs.Reached.run .start
  unfold NoAlias
  decide +kernel

/-- The key is compared letter by letter. -/
theorem hosts_shared :
    ¬∀ start s : Store, start.domains.keys = [] → Runs.Reached host start (fun _ _ => True) s →
      s.HostsApart := by
  intro h
  have hrun : Runs.Reached host hosting (fun _ _ => True)
      ([.addDomain "bob" "bob.org" .empty (.ok none),
        .addDomain "bob" "BOB.org" .empty (.ok none)].foldl host hosting) := by
    apply Runs.Reached.run .start
    exact ⟨trivial, trivial, trivial⟩
  have hempty : hosting.domains.keys = [] := rfl
  have happart := h hosting _ hempty hrun "bob.org" (by decide +kernel) "BOB.org" (by decide +kernel)
    (by decide) "bob.org" (by decide) "BOB.org" (by decide)
  revert happart
  decide

end Store
end JXPanel
