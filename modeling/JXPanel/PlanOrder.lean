import JXPanel.Forest
import JXPanel.Precedence

namespace JXPanel
set_option autoImplicit true

open Hierarchy Precedence

namespace Store
variable {s s' : Store}

def UserUnder (s : Store) (w v : String) : Prop := ∃ q ∈ s.ownPlans w, v ∈ s.seats q

def PlanUnder (s : Store) (p q : String) : Prop := q ∈ s.subs p

/-- Users are listed behind the owners of their plans. -/
theorem getUsersByPlanName_led {n : Nat} {l : List String} (h : s.getUsersByPlanName n p = .ok l) :
    Led (· ∈ s.seats p) s.UserUnder l := by
  induction n generalizing p l with
  | zero =>
    rw [getUsersByPlanName] at h
    split at h
    · cases h
    · rename_i P hP
      cases h
      exact .of_all fun o ho => seats_of_get? hP ▸ ho
  | succ n ih =>
    rw [getUsersByPlanName] at h
    split at h
    · cases h
    · rename_i P hP
      obtain ⟨g, hg, rfl⟩ := Collect.concatM_inv h
      apply Led.flatMap
      intro o ho
      have hseat : o ∈ s.seats p := seats_of_get? hP ▸ ho
      have hpart := hg o ho
      split at hpart
      · rw [← Except.ok.inj hpart]
        exact .single hseat
      · split at hpart
        · rw [← Except.ok.inj hpart]
          exact .single hseat
        · rename_i U hU
          obtain ⟨below, hbelow, hpart⟩ := Collect.bind_ok.1 hpart
          rw [← Except.ok.inj hpart]
          obtain ⟨f, hf, rfl⟩ := Collect.concatM_inv hbelow
          have hled : Led (s.UserUnder o) s.UserUnder (U.subPlans.keys.flatMap f) := by
            apply Led.flatMap
            intro i hi
            have hown : i ∈ s.ownPlans o := ownPlans_of_get? hU ▸ hi
            exact (ih (hf i hi)).mono fun v hv => ⟨i, hown, hv⟩
          exact hled.cons hseat fun _ hv => .inr hv

/-- Plans are listed behind the plans of their owners. -/
theorem getPlansByUserName_led {n : Nat} {l : List String} (h : s.getPlansByUserName n u = .ok l) :
    Led (· ∈ s.ownPlans u) s.PlanUnder l := by
  induction n generalizing u l with
  | zero =>
    rw [getPlansByUserName] at h
    split at h
    · cases h
    · rename_i U hU
      cases h
      exact .of_all fun o ho => ownPlans_of_get? hU ▸ ho
  | succ n ih =>
    rw [getPlansByUserName] at h
    split at h
    · cases h
    · rename_i U hU
      obtain ⟨g, hg, rfl⟩ := Collect.concatM_inv h
      apply Led.flatMap
      intro o ho
      have hown : o ∈ s.ownPlans u := ownPlans_of_get? hU ▸ ho
      have hpart := hg o ho
      split at hpart
      · rw [← Except.ok.inj hpart]
        exact .single hown
      · split at hpart
        · cases hpart
        · rename_i P hP
          obtain ⟨below, hbelow, hpart⟩ := Collect.bind_ok.1 hpart
          rw [← Except.ok.inj hpart]
          obtain ⟨f, hf, rfl⟩ := Collect.concatM_inv hbelow
          have hled : Led (s.PlanUnder o) s.PlanUnder (P.users.keys.flatMap f) := by
            apply Led.flatMap
            intro i hi
            have hseat : i ∈ s.seats o := seats_of_get? hP ▸ hi
            exact (ih (hf i hi)).mono fun q hq => mem_subs.2 ⟨i, hseat, hq⟩
          exact hled.cons hown fun _ hq => .inr hq

theorem own_mem_getPlansByUserName {n : Nat} {l : List String} (h : s.getPlansByUserName n u = .ok l) :
    ∀ q ∈ s.ownPlans u, q ∈ l := by
  intro q hq
  cases n with
  | zero =>
    rw [getPlansByUserName] at h
    split at h
    · cases h
    · rename_i U hU
      cases h
      exact ownPlans_of_get? hU ▸ hq
  | succ n => exact (getPlansByUserName_mem h).2 ⟨q, hq, self_mem_descend (Nat.succ_pos n) q⟩

/-- Where the users stand behind the owners of their plans, their plans stand behind the plans of their
owners. -/
theorem led_plans_of_users {n : Nat} {users : List String} {g : String → List String}
    (h : Led (· ∈ s.seats p) s.UserUnder users) (hg : ∀ u ∈ users, s.getPlansByUserName n u = .ok (g u)) :
    Led (· ∈ s.subs p) s.PlanUnder (users.flatMap g) := by
  induction h with
  | nil => exact .nil
  | snoc users u _ hu ih =>
    rw [List.flatMap_append, List.flatMap_singleton]
    have hpart := hg u (List.mem_append_right _ (List.mem_singleton_self u))
    apply (ih fun w hw => hg w (List.mem_append_left _ hw)).append (getPlansByUserName_led hpart)
    intro q hq
    rcases hu with hu | ⟨w, hw, r, hr, hur⟩
    · exact .inl (mem_subs.2 ⟨u, hu, hq⟩)
    · refine .inr ⟨r, List.mem_flatMap.2 ⟨w, hw, ?_⟩, mem_subs.2 ⟨u, hur, hq⟩⟩
      exact own_mem_getPlansByUserName (hg w (List.mem_append_left _ hw)) r hr

/-- The plans below a plan are listed behind the plans of their owners. -/
theorem getPlansByPlanName_led {n : Nat} {l : List String} (h : s.getPlansByPlanName p n = .ok l) :
    Led (· ∈ s.subs p) s.PlanUnder l := by
  obtain ⟨users, husers, hplans⟩ := Collect.bind_ok.1 h
  obtain ⟨plans, hplans, hl⟩ := Collect.bind_ok.1 hplans
  obtain ⟨g, hg, rfl⟩ := Collect.concatM_inv hplans
  rw [← Except.ok.inj hl]
  exact (led_plans_of_users (getUsersByPlanName_led husers) hg).eraseDups

theorem below_of_getPlansByPlanName {n : Nat} {l : List String} (h : s.getPlansByPlanName p n = .ok l)
    (hq : q ∈ l) : Relation.TransGen s.PlanUnder p q := by
  have hall := (getPlansByPlanName_led h).forall (P := Relation.TransGen s.PlanUnder p)
    (fun _ hx => .single hx) (fun _ _ hy hx => hy.tail hx)
  exact hall q hq

/-- In a forest no plan is below itself. -/
theorem Climbs.not_below_self (hc : s.Climbs) (h : Linked s) : ¬Relation.TransGen s.PlanUnder p p := by
  intro hcycle
  have hup : Relation.TransGen (fun q p => s.parentUp p = some q) p p :=
    hcycle.lift id fun _ _ hsub => h.parentUp_of_sub hsub
  exact hc.wellFounded.transGen.irrefl.irrefl p hup

/-- In a forest each plan is listed once, and none in front of the plan of its owner. -/
theorem Climbs.plans_in_order (hc : s.Climbs) (h : Linked s) {n : Nat} {l : List String}
    (hl : s.getPlansByPlanName p n = .ok l) : l.Nodup ∧ l.Pairwise fun q r => q ∉ s.subs r := by
  have hnodup : l.Nodup := by
    obtain ⟨users, -, hplans⟩ := Collect.bind_ok.1 hl
    obtain ⟨plans, -, hplans⟩ := Collect.bind_ok.1 hplans
    rw [← Except.ok.inj hplans]
    exact nodup_eraseDups _
  refine ⟨hnodup, (getPlansByPlanName_led hl).pairwise hnodup ?_ ?_⟩
  · intro q hq hqp r hr hqr
    obtain rfl : p = r := Option.some.inj ((h.parentUp_of_sub hqp).symm.trans (h.parentUp_of_sub hqr))
    exact hc.not_below_self h (below_of_getPlansByPlanName hl hr)
  · intro q r r' hr hr'
    exact Option.some.inj ((h.parentUp_of_sub hr).symm.trans (h.parentUp_of_sub hr'))

theorem Linked.getPlansByPlanName_total (h : Linked s) (n : Nat) (hp : p ∈ s.plans) :
    ∃ l, s.getPlansByPlanName p n = .ok l := by
  apply Collect.bind_total (h.getUsersByPlanName_total n hp)
  intro users husers
  have hseated : ∀ u ∈ users, ∃ q, u ∈ s.seats q :=
    (getUsersByPlanName_led husers).forall (fun _ hu => ⟨p, hu⟩) fun _ _ _ hu => hu.imp fun q hq => hq.2
  apply Collect.bind_total
  · apply Collect.concatM_total
    intro u hu
    obtain ⟨q, hq⟩ := hseated u hu
    exact h.getPlansByUserName_total n hq
  · exact fun plans _ => ⟨_, rfl⟩

/-- What is found below a user is a part of what is found below his plan, behind himself. -/
theorem Linked.getUsersByUserName_nodup (h : Linked s) (hr : s.Ranked) (hu : u ∈ s.seats p) {n : Nat} (hn : n ≠ 0)
    {l : List String} (hl : s.getUsersByUserName u n = .ok l) : (u :: l).Nodup := by
  obtain ⟨whole, hwhole⟩ := h.getUsersByPlanName_total (n + 1) (mem_plans_of_seat hu)
  have hnodup := h.getUsersByPlanName_nodup hr hwhole
  obtain ⟨P, hP, hin⟩ := mem_seats.1 hu
  obtain ⟨U, hU⟩ := Dict.mem_iff.1 (h.user_mem hu)
  rw [getUsersByPlanName, hP] at hwhole
  obtain ⟨g, hg, rfl⟩ := Collect.concatM_inv hwhole
  have hkey : u ∈ P.users.keys := Dict.mem_keys.2 hin
  have hpart := hg u hkey
  rw [if_neg hn, hU] at hpart
  rw [getUsersByUserName, hU] at hl
  dsimp only at hl hpart
  rw [hl, Collect.ok_bind] at hpart
  have hone := (List.nodup_flatMap.1 hnodup).1 u hkey
  rw [← Except.ok.inj hpart] at hone
  exact hone

end Store
end JXPanel
