import JXPanel.Links

namespace JXPanel
set_option autoImplicit true

/-- The record without what a suspension changes. -/
def Plan.core (p : Plan) : Plan := { p with suspended := .undefined }

def User.core (u : User) : User := { u with suspended := .undefined }

def PlanData.core : PlanData → PlanData
  | .copy d => .copy d.core
  | .live => .live

namespace Store

/-- The stores differ in nothing but what is suspended and for which reasons. -/
structure Resuspended (s s' : Store) : Prop where
  plans : s'.plans.mapVals (fun _ => Plan.core) = s.plans.mapVals (fun _ => Plan.core)
  users : s'.users.mapVals (fun _ => User.core) = s.users.mapVals (fun _ => User.core)
  domains : s'.domains = s.domains
  config : s'.config = s.config

variable {s s' : Store}

theorem Resuspended.refl (s : Store) : Resuspended s s := ⟨rfl, rfl, rfl, rfl⟩

theorem Resuspended.trans {s₁ s₂ : Store} (h : Resuspended s s₁) (h' : Resuspended s₁ s₂) :
    Resuspended s s₂ :=
  ⟨h'.plans.trans h.plans, h'.users.trans h.users, h'.domains.trans h.domains,
    h'.config.trans h.config⟩

theorem Resuspended.setPlan {P P' : Plan} (hP : s.plans.get? name = some P)
    (hc : P'.core = P.core) : Resuspended s (s.setPlan name P') :=
  ⟨Dict.mapVals_set _ hP hc, rfl, rfl, rfl⟩

theorem Resuspended.setUser {U U' : User} (hU : s.users.get? name = some U)
    (hc : U'.core = U.core) : Resuspended s (s.setUser name U') :=
  ⟨rfl, Dict.mapVals_set _ hU hc, rfl, rfl⟩

namespace Resuspended
variable (h : Resuspended s s')
include h

theorem plan_core (p : String) :
    (s'.plans.get? p).map Plan.core = (s.plans.get? p).map Plan.core := by
  rw [← Dict.get?_mapVals (fun _ => Plan.core), ← Dict.get?_mapVals (fun _ => Plan.core), h.plans]

theorem user_core (u : String) :
    (s'.users.get? u).map User.core = (s.users.get? u).map User.core := by
  rw [← Dict.get?_mapVals (fun _ => User.core), ← Dict.get?_mapVals (fun _ => User.core), h.users]

/-- What does not depend on the suspension of a plan is as before. -/
theorem plan_map {α : Type} {f : Plan → α} (hf : ∀ P, f P.core = f P) (p : String) :
    (s'.plans.get? p).map f = (s.plans.get? p).map f := by
  have hc := congrArg (Option.map f) (h.plan_core p)
  rw [Option.map_map, Option.map_map] at hc
  rwa [show f ∘ Plan.core = f from funext hf] at hc

theorem user_map {α : Type} {f : User → α} (hf : ∀ U, f U.core = f U) (u : String) :
    (s'.users.get? u).map f = (s.users.get? u).map f := by
  have hc := congrArg (Option.map f) (h.user_core u)
  rw [Option.map_map, Option.map_map] at hc
  rwa [show f ∘ User.core = f from funext hf] at hc

theorem seats (p : String) : s'.seats p = s.seats p :=
  congrArg (Option.getD · []) (h.plan_map (fun _ => rfl) p)

theorem ownerOf (p : String) : s'.ownerOf p = s.ownerOf p := h.plan_map (fun _ => rfl) p

theorem planOf (u : String) : s'.planOf u = s.planOf u := h.user_map (fun _ => rfl) u

theorem ownPlans (u : String) : s'.ownPlans u = s.ownPlans u :=
  congrArg (Option.getD · []) (h.user_map (fun _ => rfl) u)

theorem ownDomains (u : String) : s'.ownDomains u = s.ownDomains u :=
  congrArg (Option.getD · []) (h.user_map (fun _ => rfl) u)

theorem getDomain? (d : String) : s'.getDomain? d = s.getDomain? d := by
  rw [Store.getDomain?, h.domains]
  rfl

theorem domainOwner (d : String) : s'.domainOwner d = s.domainOwner d :=
  congrArg (Option.map Domain.owner) (h.getDomain? d)

theorem fuel : s'.fuel = s.fuel := by
  have hs := congrArg Dict.size h.plans
  rw [Dict.size_mapVals, Dict.size_mapVals] at hs
  exact congrArg (· + 1) hs

theorem integrity (hi : Integrity s) : Integrity s' := by
  refine ⟨fun u p => ?_, fun p u hu hp => ?_, fun p u hp => ?_, fun d u => ?_, fun d hd => ?_⟩
  · rw [h.planOf, h.seats]
    exact hi.seat u p
  · rw [h.ownerOf] at hp
    rw [h.ownPlans]
    exact hi.plan p u hu hp
  · rw [h.ownPlans] at hp
    rw [h.ownerOf]
    exact hi.owned p u hp
  · rw [h.domainOwner, h.ownDomains]
    exact hi.domain d u
  · rw [h.getDomain?]
    exact hi.filled d (h.domains ▸ hd)

theorem linked (hl : Linked s) : Linked s' := by
  refine ⟨fun u p hu => ?_, fun u p q hu hq => ?_⟩
  · rw [h.seats] at hu
    rw [h.planOf]
    exact hl.seated u p hu
  · rw [h.seats] at hu
    rw [h.ownPlans] at hq
    rw [h.ownerOf]
    exact hl.owned u p q hu hq

end Resuspended

theorem suspendPlan_resuspended (s : Store) (name o : String) :
    Resuspended s (s.suspendPlan name o).1 := by
  unfold suspendPlan
  split
  · exact .refl s
  · rename_i P hP
    split
    · exact .refl s
    · exact .setPlan hP rfl

theorem unSuspendPlan_resuspended (s : Store) (name : String) (o : Option String) :
    Resuspended s (s.unSuspendPlan name o).1 := by
  unfold unSuspendPlan
  split
  · exact .refl s
  · rename_i P hP
    split
    · exact .refl s
    · exact .setPlan hP rfl

theorem runAll_resuspended {α : Type} {f : Store → α → Store × Js Unit}
    (hf : ∀ s x, Resuspended s (f s x).1) (l : List α) (s : Store) :
    Resuspended s (Collect.runAll f l s).1 :=
  Collect.runAll_keeps (P := Resuspended s) (fun t x _ ht => ht.trans (hf t x)) (.refl s)

theorem suspendUser_resuspended (s : Store) (name o : String) :
    Resuspended s (s.suspendUser name o).1 := by
  unfold suspendUser
  split
  · exact .refl s
  · rename_i U hU
    split
    · exact .refl s
    · rename_i v _
      have hset : Resuspended s (s.setUser name { U with suspended := v }) := .setUser hU rfl
      dsimp only
      split
      · exact hset
      · exact hset
      · exact hset.trans (runAll_resuspended (fun s i => suspendPlan_resuspended s i o) _ _)

theorem unSuspendUser_resuspended (s : Store) (name : String) (o : Option String) :
    Resuspended s (s.unSuspendUser name o).1 := by
  unfold unSuspendUser
  split
  · exact .refl s
  · rename_i U hU
    split
    · exact .refl s
    · rename_i v _
      have hset : Resuspended s (s.setUser name { U with suspended := v }) := .setUser hU rfl
      dsimp only
      split
      · exact hset
      · exact hset.trans (runAll_resuspended (fun s i => unSuspendPlan_resuspended s i o) _ _)

theorem lowerSubPlans_resuspended (s : Store) (max_new : Obj) (l : List String) :
    Resuspended s (s.lowerSubPlans max_new l).1 := by
  refine runAll_resuspended (fun s e => runAll_resuspended (fun s i => ?_) l s) _ s
  unfold lowerSubPlan
  split
  · exact .refl s
  · dsimp only
    split
    · exact suspendPlan_resuspended s i e.1
    · exact .refl s

theorem suspendOver_resuspended (m : Measure) (reason name : String) (plan : Plan) (s : Store)
    (data : PlanData) :
    Resuspended s (suspendOver m reason name plan s data).1.1 ∧
      (suspendOver m reason name plan s data).1.2.core = data.core := by
  have hdata : Resuspended s (s.suspendData name reason data).1.1 ∧
      (s.suspendData name reason data).1.2.core = data.core := by
    cases data with
    | copy d =>
      rw [suspendData]
      cases addReason d.suspended reason with
      | error f => exact ⟨.refl s, rfl⟩
      | ok v => exact ⟨.refl s, rfl⟩
    | live => exact ⟨suspendPlan_resuspended s name reason, rfl⟩
  unfold suspendOver
  split
  · exact ⟨.refl s, rfl⟩
  · split
    · split
      · rename_i r f hr
        rw [hr] at hdata
        exact hdata
      · rename_i r hr
        rw [hr] at hdata
        exact hdata
    · exact ⟨.refl s, rfl⟩

/-- An update of a plan changes what is suspended, and in the end writes the data. -/
theorem updatePlan_cases {data : PlanData} {r} (h : s.updatePlan name data = (s', r)) :
    (Resuspended s s' ∧ r ≠ .ok none) ∨
    (∃ s₁ data₁ plan user parent, Resuspended s s₁ ∧ data₁.core = data.core ∧ r = .ok none ∧
      s' = s₁.writeData name data₁ ∧ s.plans.get? name = some plan ∧
      (s.readData name plan data).owner = plan.owner ∧ s.users.get? plan.owner = some user ∧
      s.plans.get? user.plan = some parent ∧
      parent.checkAddPlan (s.readData name plan data).limits = .ok none) := by
  unfold updatePlan at h
  split at h
  · cases h
    exact .inl ⟨.refl s, by simp⟩
  · rename_i plan hplan
    split at h
    · cases h
      exact .inl ⟨.refl s, by simp⟩
    · rename_i howner
      split at h
      · cases h
        exact .inl ⟨.refl s, by simp⟩
      · rename_i user huser
        split at h
        · cases h
          exact .inl ⟨.refl s, by simp⟩
        · rename_i parent hparent
          rcases guarded_cases h with ⟨rfl, hr⟩ | ⟨hcheck, h⟩
          · exact .inl ⟨.refl _, hr⟩
          · split at h
            · cases h
              exact .inl ⟨.refl s, by simp⟩
            · rename_i sub_plans _
              have h₁ := s.lowerSubPlans_resuspended
                (s.readData name plan data).planMaximums sub_plans
              split at h
              · rename_i s₁ f hrun
                cases h
                rw [hrun] at h₁
                exact .inl ⟨h₁, by simp⟩
              · rename_i s₁ hrun
                rw [hrun] at h₁
                have h₂ := suspendOver_resuspended userMeasure "maxUserCount" name plan s₁ data
                split at h
                · rename_i s₂ data₂ f hover
                  cases h
                  rw [hover] at h₂
                  exact .inl ⟨h₁.trans h₂.1, by simp⟩
                · rename_i s₂ data₂ b₂ hover
                  rw [hover] at h₂
                  have h₃ := suspendOver_resuspended domainMeasure "maxDomainCount" name plan s₂
                    data₂
                  split at h
                  · rename_i s₃ data₃ f hover
                    cases h
                    rw [hover] at h₃
                    exact .inl ⟨(h₁.trans h₂.1).trans h₃.1, by simp⟩
                  · rename_i s₃ data₃ b₃ hover
                    rw [hover] at h₃
                    have hs : Resuspended s s₃ := (h₁.trans h₂.1).trans h₃.1
                    have hd : data₃.core = data.core := h₃.2.trans h₂.2
                    cases h
                    refine .inr ⟨_, _, plan, user, parent, ?_, ?_, rfl, rfl, hplan,
                      (not_not.1 howner).symm, huser, hparent, hcheck⟩
                    · split
                      · cases data₃ with
                        | copy d => exact hs
                        | live => exact hs.trans (unSuspendPlan_resuspended _ _ _)
                      · exact hs
                    · split
                      · cases data₃ with
                        | copy d => exact hd
                        | live => exact hd
                      · exact hd

end Store
end JXPanel
