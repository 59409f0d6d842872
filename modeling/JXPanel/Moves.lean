import JXPanel.PlanCounts
import JXPanel.PlanDirs
import JXPanel.Rollback
import JXPanel.Terminal

namespace JXPanel
set_option autoImplicit true

namespace Sessions

/-- The home folder of the session's user, which is kept with the session. -/
def openHome (s : Sessions) (db : Store) (apps_folder : List Char) (sessionId : String) : Sessions × Js (List Char) :=
  match s.users.get? sessionId with
  | none => (s, .error .typeError)
  | some active_user =>
    match homeFolder db apps_folder active_user with
    | .error f => (s, .error f)
    | .ok home => ({ s with users := s.users.modify sessionId fun u => { u with path := some home } }, .ok home)

/-- Home folders are kept only with sessions that they were kept with before. -/
def Carries (s s' : Sessions) : Prop :=
  ∀ sid a path, s'.users.get? sid = some a → a.path = some path →
    ∃ b, s.users.get? sid = some b ∧ b.username = a.username ∧ b.path = some path

end Sessions

/-- What happens to the homes and to the sessions that keep them. -/
inductive HomeEvent
  | submit (h : Helpers) (username : String) (isUpdate : Option String) (c : Submission)
  | session (e : SessionEvent)
  | openHome (sessionId : String)
  | createTerminal (isPanelUninstalled : Bool) (sessionId : String) (now : Nat)

namespace Store

/-- The stores have the same owners of plans and the same plans of users, and none is smaller. -/
structure SamePlaces (s s' : Store) : Prop where
  owners : ∀ p, s'.ownerOf p = s.ownerOf p
  plans : ∀ u, s'.planOf u = s.planOf u
  fuel : s.fuel ≤ s'.fuel

/-- None of the user's plans is on the way to the home of another user or to the plan he is moved to. -/
def MovesAlone (s : Store) (u new_plan : String) : Prop :=
  ∀ q, s.ownerOf q = some u → (∀ v arr, v ≠ u → s.Way v arr → q ∉ arr) ∧
    ∀ arr, s.pathPlans s.fuel new_plan = .ok arr → q ∉ arr

end Store

namespace Panel

/-- The panel of an installation, on which nobody has worked. -/
def newPanel (ftp : Ftp) : Panel := ⟨installed, ftp, .empty, .empty⟩

/-- The panel after an event, also where a handler throws. -/
def homeStep (apps_folder : List Char) (p : Panel) : HomeEvent → Panel
  | .submit h username isUpdate c => (p.submit h username isUpdate c).1
  | .session e => { p with sessions := p.sessions.after e }
  | .openHome sessionId => { p with sessions := (p.sessions.openHome p.db apps_folder sessionId).1 }
  | .createTerminal isPanelUninstalled sessionId now =>
    { p with sessions := (p.sessions.createTerminal p.db isPanelUninstalled apps_folder sessionId now).1 }

/-- Each user's home is where the hierarchy says, and a session keeps no other place. -/
structure HomesFollow (apps_folder : List Char) (p : Panel) : Prop where
  homes : ∀ v V, p.db.users.get? v = some V →
    ∃ path, p.db.getUserPath apps_folder V.plan v = .ok path ∧ p.homes.get? v = some path
  kept : ∀ sid a path, p.sessions.users.get? sid = some a → a.path = some path →
    a.username ∈ p.db.users ∧ p.homes.get? a.username = some path
  seated : ∀ v V, p.db.users.get? v = some V → V.plan ∈ p.db.plans

/-- The home of the second user lies in the directory of the first. -/
def HomeIn (p : Panel) (u v : String) : Prop :=
  ∃ home path, p.homes.get? u = some home ∧ p.homes.get? v = some path ∧ Paths.Inside home path

/-- A new user has a plan and nobody's plans are his already; a user is moved to a plan there is, and
moves alone. -/
def MovesCleanly (p : Panel) (isUpdate : Option String) (c : Submission) : Prop :=
  match c.form, isUpdate with
  | .addUser, none => "plan" ∈ c.json ∧ (∀ q, p.db.ownerOf q ≠ some c.name) ∧ ∀ v ∈ p.db.users, ¬p.HomeIn c.name v
  | .addUser, some id => ∀ U v, p.db.users.get? id = some U → c.json.get? "plan" = some v →
      JsVal.strictEq (.str U.plan) v = false → v.toKey ∈ p.db.plans ∧ p.db.MovesAlone id v.toKey ∧
        ∀ w ∈ p.db.users, w ≠ id → ¬p.HomeIn id w
  | _, _ => True

/-- Submissions of the forms' fields succeed, or leave no trace, and none moves a user who has others'
homes below his plans or in his directory. -/
def Orderly (apps_folder : List Char) (p : Panel) : HomeEvent → Prop
  | .submit h username isUpdate c => h.apps_folder = apps_folder ∧ c.OfForm ∧ p.MovesCleanly isUpdate c ∧
      ((p.submit h username isUpdate c).2 = .ok none ∨ (p.submit h username isUpdate c).1 = p)
  | _ => True

end Panel

namespace Store
variable {s s' s₁ : Store} {apps_folder path : List Char} {p q u name : String} {arr : List String} {U V : User}

theorem getParentPlanName_eq (s : Store) (p : String) : s.getParentPlanName p =
    (s.ownerOf p).bind fun o => (s.planOf o).bind fun q => if p = q then none else some q := by
  unfold getParentPlanName
  cases hP : s.plans.get? p with
  | none =>
    rw [ownerOf, hP]
    rfl
  | some P =>
    rw [ownerOf_of_get? hP, Option.bind_some]
    dsimp only
    cases hU : s.users.get? P.owner with
    | none =>
      rw [planOf, hU]
      rfl
    | some U => rw [planOf_of_get? hU, Option.bind_some]

/-- The way down to a plan is as long as the plans on it have the parents that they had. -/
theorem pathPlans_transport {n : Nat} (h : s.pathPlans n p = .ok arr)
    (hsame : ∀ q ∈ arr, s'.getParentPlanName q = s.getParentPlanName q) : s'.pathPlans n p = .ok arr := by
  induction n generalizing p arr with
  | zero => exact h
  | succ n ih =>
    rw [pathPlans] at h
    rw [pathPlans]
    split at h
    · rename_i hp
      rw [if_pos hp]
      exact h
    · rename_i hp
      rw [if_neg hp]
      cases hq : s.getParentPlanName p with
      | none =>
        rw [hq] at h
        cases h
        rw [hsame p (List.mem_singleton_self p), hq]
      | some q =>
        rw [hq] at h
        obtain ⟨above, habove, h⟩ := Collect.bind_ok.1 h
        cases h
        rw [hsame p (List.mem_append_right _ (List.mem_singleton_self p)), hq]
        exact Collect.bind_ok.2 ⟨above, ih habove fun r hr => hsame r (List.mem_append_left _ hr), rfl⟩

theorem pathPlans_le {n m : Nat} (hle : n ≤ m) (h : s.pathPlans n p = .ok arr) : s.pathPlans m p = .ok arr := by
  induction hle with
  | refl => exact h
  | step _ ih => exact pathPlans_mono ih

theorem getUserPath_of_pathPlans (apps_folder : List Char) (h : s.pathPlans s.fuel p = .ok arr) (u : String) :
    s.getUserPath apps_folder p u = .ok (apps_folder ++ '/' ::
      (['/'].intercalate (arr.map encodedName) ++ '/' :: u.toList)) :=
  Collect.bind_ok.2 ⟨arr, h, rfl⟩

/-- A path that was computed is computed again while the plans on the way have the parents they had. -/
theorem getUserPath_transport (h : s.getUserPath apps_folder p u = .ok path) (hfuel : s.fuel ≤ s'.fuel)
    (hsame : ∀ arr, s.pathPlans s.fuel p = .ok arr → ∀ q ∈ arr, s'.getParentPlanName q = s.getParentPlanName q) :
    s'.getUserPath apps_folder p u = .ok path := by
  obtain ⟨arr, harr, rfl⟩ := getUserPath_ok h
  exact getUserPath_of_pathPlans apps_folder (pathPlans_le hfuel (pathPlans_transport harr (hsame arr harr))) u

/-- The plans above a plan there is are there as well, while the users' plans are. -/
theorem mem_plans_of_way {n : Nat} (hseated : ∀ v V, s.users.get? v = some V → V.plan ∈ s.plans)
    (h : s.pathPlans n p = .ok arr) (hp : p ∈ s.plans) : ∀ q ∈ arr, q ∈ s.plans := by
  induction n generalizing p arr with
  | zero =>
    rw [pathPlans] at h
    split at h
    · cases h
      exact fun q hq => absurd hq List.not_mem_nil
    · cases h
  | succ n ih =>
    rw [pathPlans] at h
    split at h
    · cases h
      exact fun q hq => absurd hq List.not_mem_nil
    · cases hr : s.getParentPlanName p with
      | none =>
        rw [hr] at h
        cases h
        intro q hq
        rw [List.mem_singleton.1 hq]
        exact hp
      | some r =>
        rw [hr] at h
        obtain ⟨above, habove, h⟩ := Collect.bind_ok.1 h
        cases h
        obtain ⟨o, -, ho⟩ := Option.bind_eq_some_iff.1 (getParentPlanName_up hr)
        obtain ⟨O, hO, hplan⟩ := planOf_eq.1 ho
        intro q hq
        rcases List.mem_append.1 hq with hq | hq
        · exact ih habove (hplan ▸ hseated o O hO) q hq
        · rw [List.mem_singleton.1 hq]
          exact hp

/-- No plan is twice on a way. -/
theorem pathPlans_nodup {n : Nat} (h : s.pathPlans n p = .ok arr) : arr.Nodup := by
  induction n generalizing p arr with
  | zero =>
    rw [pathPlans] at h
    split at h
    · cases h
      exact List.nodup_nil
    · cases h
  | succ n ih =>
    have hself := h
    rw [pathPlans] at h
    split at h
    · cases h
      exact List.nodup_nil
    · cases hq : s.getParentPlanName p with
      | none =>
        rw [hq] at h
        cases h
        exact List.nodup_singleton p
      | some q =>
        rw [hq] at h
        obtain ⟨above, habove, h⟩ := Collect.bind_ok.1 h
        cases h
        refine List.Nodup.append (ih habove) (List.nodup_singleton p) (List.disjoint_singleton.2 fun hp => ?_)
        obtain ⟨l, r, rfl⟩ := List.append_of_mem hp
        -- a part of the way would be the whole of it
        have hway := pathPlans_mono <| pathPlans_prefix habove (show l ++ [p] <+: l ++ p :: r from ⟨r, by simp⟩)
        have hlength := congrArg List.length (Except.ok.inj (hway.symm.trans hself))
        simp at hlength

/-- A way is found by as many turns of the loop as it has plans. -/
theorem pathPlans_of_length {n m : Nat} (h : s.pathPlans n p = .ok arr) (hm : arr.length ≤ m) :
    s.pathPlans m p = .ok arr := by
  induction n generalizing p arr m with
  | zero => exact pathPlans_le (Nat.zero_le m) h
  | succ n ih =>
    by_cases hp : p = ""
    · rw [pathPlans, if_pos hp] at h
      have hnone : s.pathPlans 0 p = .ok arr := by
        rw [pathPlans, if_pos hp]
        exact h
      exact pathPlans_le (Nat.zero_le m) hnone
    · obtain ⟨above, rfl⟩ := pathPlans_last h hp
      rw [List.length_append] at hm
      obtain ⟨m, rfl⟩ := Nat.exists_eq_add_of_le' (Nat.le_of_add_left_le hm)
      rw [pathPlans, if_neg hp] at h
      rw [List.length_singleton] at hm
      rw [List.length_singleton, pathPlans, if_neg hp]
      cases hq : s.getParentPlanName p with
      | none =>
        rw [hq] at h
        exact h
      | some q =>
        rw [hq] at h
        obtain ⟨above', habove, h⟩ := Collect.bind_ok.1 h
        obtain rfl : above' = above := List.append_inj_left' (Except.ok.inj h) rfl
        exact Collect.bind_ok.2 ⟨above', ih habove (Nat.le_of_succ_le_succ hm), rfl⟩

/-- Where users are in plans there are, each way is found within the turns that the loops are given. -/
theorem pathPlans_fuel {n : Nat} (hseated : ∀ v V, s.users.get? v = some V → V.plan ∈ s.plans)
    (h : s.pathPlans n p = .ok arr) (hp : p ∈ s.plans) : s.pathPlans s.fuel p = .ok arr := by
  apply pathPlans_of_length h
  have hlength : arr.length ≤ s.plans.keys.length :=
    (pathPlans_nodup h).length_le_of_subset fun q hq => Dict.mem_keys.2 (mem_plans_of_way hseated h hp q hq)
  rw [Dict.length_keys] at hlength
  exact Nat.le_succ_of_le hlength

/-- Only the parents of a user's plans change when he is moved. -/
theorem getParentPlanName_setUser (hr : s.ownerOf p ≠ some u) :
    (s.setUser u V).getParentPlanName p = s.getParentPlanName p := by
  rw [getParentPlanName_eq, getParentPlanName_eq]
  have howner : (s.setUser u V).ownerOf p = s.ownerOf p := rfl
  rw [howner]
  cases ho : s.ownerOf p with
  | none => rfl
  | some o =>
    have hne : o ≠ u := by
      rintro rfl
      exact hr ho
    rw [Option.bind_some, Option.bind_some, planOf_setUser, if_neg hne]

theorem getParentPlanName_moved (hr : s.ownerOf p = some u) :
    (s.setUser u V).getParentPlanName p = if p = V.plan then none else some V.plan := by
  have howner : (s.setUser u V).ownerOf p = some u := hr
  rw [getParentPlanName_eq, howner, Option.bind_some, planOf_setUser, if_pos rfl]
  rfl

/-- What the move of a user makes of the ways on which his plans are. -/
theorem pathPlans_moved {n : Nat} {top new : List String} (hU : s.planOf u = some q) (hown : s.ownerOf q ≠ some u)
    (htop : s.pathPlans s.fuel q = .ok top) (hnew : (s.setUser u V).pathPlans s.fuel V.plan = .ok new)
    (hclear : s.ownerOf V.plan ≠ some u) (hn : n ≤ s.fuel) (h : s.pathPlans n p = .ok arr) :
    ((∀ r ∈ arr, s.ownerOf r ≠ some u) ∧ (s.setUser u V).pathPlans (s.fuel + n) p = .ok arr) ∨
      ∃ r rest, arr = top ++ r :: rest ∧ s.ownerOf r = some u ∧
        (s.setUser u V).pathPlans (s.fuel + n) p = .ok (new ++ r :: rest) := by
  induction n generalizing p arr with
  | zero =>
    rw [pathPlans] at h
    split at h
    · next hp =>
      cases h
      refine .inl ⟨fun r hr => absurd hr List.not_mem_nil, ?_⟩
      rw [Nat.add_zero, Store.fuel, pathPlans, if_pos hp]
    · cases h
  | succ n ih =>
    rw [← Nat.add_assoc]
    rw [pathPlans] at h
    split at h
    · next hp =>
      cases h
      refine .inl ⟨fun r hr => absurd hr List.not_mem_nil, ?_⟩
      rw [pathPlans, if_pos hp]
    · next hp =>
      by_cases ho : s.ownerOf p = some u
      · -- the plan is his, and it was right below the plan that he leaves
        have hpq : p ≠ q := fun he => hown (he ▸ ho)
        have hpV : p ≠ V.plan := fun he => hclear (he ▸ ho)
        have hparent : s.getParentPlanName p = some q := by
          rw [getParentPlanName_eq, ho, Option.bind_some, hU, Option.bind_some, if_neg hpq]
        rw [hparent] at h
        obtain ⟨above, habove, h⟩ := Collect.bind_ok.1 h
        cases h
        have hsame := pathPlans_le (Nat.le_of_succ_le hn) habove
        obtain rfl : top = above := Except.ok.inj (htop.symm.trans hsame)
        refine .inr ⟨p, [], rfl, ho, ?_⟩
        rw [pathPlans, if_neg hp, getParentPlanName_moved ho, if_neg hpV]
        exact Collect.bind_ok.2 ⟨new, pathPlans_le (Nat.le_add_right _ _) hnew, rfl⟩
      · have hparent := getParentPlanName_setUser (V := V) ho
        rw [pathPlans, if_neg hp, hparent]
        cases hy : s.getParentPlanName p with
        | none =>
          rw [hy] at h
          cases h
          refine .inl ⟨fun r hr => ?_, rfl⟩
          rw [List.mem_singleton.1 hr]
          exact ho
        | some y =>
          rw [hy] at h
          obtain ⟨above, habove, h⟩ := Collect.bind_ok.1 h
          cases h
          rcases ih (Nat.le_of_succ_le hn) habove with ⟨hall, hway⟩ | ⟨r, rest, rfl, hr, hway⟩
          · refine .inl ⟨fun r hr => ?_, Collect.bind_ok.2 ⟨above, hway, rfl⟩⟩
            rcases List.mem_append.1 hr with hr | hr
            · exact hall r hr
            · rw [List.mem_singleton.1 hr]
              exact ho
          · refine .inr ⟨r, rest ++ [p], by simp, hr, Collect.bind_ok.2 ⟨_, hway, ?_⟩⟩
            exact congrArg Except.ok (List.append_assoc new (r :: rest) [p])

/-- The directories of the plans on the way down, and those behind them. -/
theorem intercalate_ways {l r : List (List Char)} (hl : l ≠ []) (hr : r ≠ []) :
    ['/'].intercalate (l ++ r) = ['/'].intercalate l ++ '/' :: ['/'].intercalate r := by
  induction l with
  | nil => exact absurd rfl hl
  | cons a l ih =>
    cases l with
    | nil =>
      rw [List.singleton_append, List.intercalate_cons_of_ne_nil hr, List.intercalate_singleton, List.append_assoc]
      rfl
    | cons b l =>
      have hrest := ih (List.cons_ne_nil b l)
      rw [List.cons_append, List.cons_append, List.intercalate_cons_cons, List.intercalate_cons_cons,
        ← List.cons_append, hrest]
      simp only [List.append_assoc, List.cons_append]

/-- Behind two ways the same plan has the same path just when the directories above it are the same. -/
theorem samePath_iff {top new rest : List String} {r : String} (htop : top ≠ []) (hnew : new ≠ []) :
    apps_folder ++ '/' :: (['/'].intercalate ((new ++ r :: rest).map encodedName) ++ '/' :: u.toList) =
        apps_folder ++ '/' :: (['/'].intercalate ((top ++ r :: rest).map encodedName) ++ '/' :: u.toList) ↔
      ['/'].intercalate (top.map encodedName) = ['/'].intercalate (new.map encodedName) := by
  have hmap : ∀ l : List String, l ≠ [] → l.map encodedName ≠ [] := by
    intro l hl hn
    exact hl (List.map_eq_nil_iff.1 hn)
  rw [List.append_cancel_left_eq, List.cons_eq_cons, and_iff_right rfl, List.append_cancel_right_eq, List.map_append,
    List.map_append, intercalate_ways (hmap new hnew) (hmap _ (List.cons_ne_nil r rest)),
    intercalate_ways (hmap top htop) (hmap _ (List.cons_ne_nil r rest)), List.append_cancel_right_eq]
  exact eq_comm

namespace SamePlaces

theorem refl (s : Store) : SamePlaces s s := ⟨fun _ => rfl, fun _ => rfl, Nat.le_refl _⟩

theorem trans (h : SamePlaces s s₁) (h' : SamePlaces s₁ s') : SamePlaces s s' :=
  ⟨fun p => (h'.owners p).trans (h.owners p), fun u => (h'.plans u).trans (h.plans u), h.fuel.trans h'.fuel⟩

theorem of_resuspended (h : Resuspended s s') : SamePlaces s s' := ⟨h.ownerOf, h.planOf, h.fuel.ge⟩

theorem setUser (hU : s.users.get? u = some U) (hV : V.plan = U.plan) : SamePlaces s (s.setUser u V) := by
  refine ⟨fun _ => rfl, fun v => ?_, Nat.le_refl _⟩
  rw [planOf_setUser]
  split
  · next he => rw [he, hV, planOf_of_get? hU]
  · rfl

theorem modifyUser {f : User → User} (hf : ∀ U, (f U).plan = U.plan) (o : String) : SamePlaces s (s.modifyUser o f) :=
  ⟨fun _ => rfl, planOf_modifyUser s hf o, Nat.le_refl _⟩

theorem setPlan {P Q : Plan} (hP : s.plans.get? p = some P) (hQ : Q.owner = P.owner) :
    SamePlaces s (s.setPlan p Q) := by
  refine ⟨fun q => ?_, fun _ => rfl, Nat.succ_le_succ (Dict.size_set_le _ _ _)⟩
  rw [ownerOf_setPlan]
  split
  · next he => rw [he, hQ, ownerOf_of_get? hP]
  · rfl

/-- The domains are no part of it. -/
theorem setDomain (name : String) (domain : Option Domain) : SamePlaces s (s.setDomain name domain) :=
  ⟨fun _ => rfl, fun _ => rfl, Nat.le_refl _⟩

theorem eraseDomain (name : String) : SamePlaces s (s.eraseDomain name) := ⟨fun _ => rfl, fun _ => rfl, Nat.le_refl _⟩

theorem addDomain (owner name : String) (opts : Obj) : SamePlaces s (s.addDomain owner name opts).1 := by
  rcases hr : s.addDomain owner name opts with ⟨s', r⟩
  rcases addDomain_cases hr with ⟨rfl, -⟩ | ⟨-, -, U, plan, -, -, -, rfl⟩
  · exact .refl _
  · have hseat : SamePlaces s (s.modifyUser owner fun u => { u with domains := u.domains.set name () }) := by
      apply SamePlaces.modifyUser
      exact fun _ => rfl
    exact hseat.trans (.setDomain name _)

theorem deleteDomain (name : String) : SamePlaces s (s.deleteDomain name).1 := by
  rcases hr : s.deleteDomain name with ⟨s', r⟩
  rcases deleteDomain_cases hr with ⟨rfl, -⟩ | ⟨D, -, ⟨-, rfl, -⟩ | ⟨-, rfl, -⟩⟩
  · exact .refl _
  · exact .eraseDomain name
  · apply SamePlaces.trans (.eraseDomain name)
    apply SamePlaces.modifyUser
    exact fun _ => rfl

theorem updateDomain (name : String) (data : Domain) : SamePlaces s (s.updateDomain name data).1 := by
  unfold Store.updateDomain
  split
  · exact .refl s
  · next D _ =>
    split
    · exact .refl s
    · split
      · have hadd : SamePlaces s ((s.setDomain name none).addDomain data.owner name data.toObj).1 :=
          .trans (.setDomain name none) (.addDomain data.owner name data.toObj)
        split
        · next hrun =>
          rw [hrun] at hadd
          exact hadd
        · next hrun =>
          rw [hrun] at hadd
          exact hadd.trans (.setDomain name (some D))
        · next hrun =>
          rw [hrun] at hadd
          apply hadd.trans
          apply SamePlaces.modifyUser
          exact fun _ => rfl
      · exact .setDomain name _

theorem editDomain (name : String) (json : Obj) : SamePlaces s (s.editDomain name json).1 := by
  unfold Store.editDomain
  split
  · exact .refl s
  · exact .trans (.setDomain name _) (.updateDomain name _)

theorem sessionAddDomain (username : String) (json : Obj) (appCreateHomeDir : Js (Option String)) :
    SamePlaces s (s.sessionAddDomain username json appCreateHomeDir).1 := by
  unfold Store.sessionAddDomain
  split
  · exact .refl s
  · exact .refl s
  · next arr _ =>
    split
    · exact .refl s
    · have hadd : SamePlaces s (s.addDomain username (prop json "name").toKey (withPorts json arr)).1 :=
        .addDomain _ _ _
      dsimp only
      rcases hrun : s.addDomain username (prop json "name").toKey (withPorts json arr) with ⟨s', f | (_ | err)⟩
      · rw [hrun] at hadd
        exact hadd
      · rw [hrun] at hadd
        rcases appCreateHomeDir with f | (_ | err)
        · exact hadd
        · exact hadd
        · have hdel : SamePlaces s' (s'.deleteDomain (prop json "name").toKey).1 := .deleteDomain _
          dsimp only
          rcases hgone : s'.deleteDomain (prop json "name").toKey with ⟨s'', f | report⟩
          · rw [hgone] at hdel
            exact hadd.trans hdel
          · rw [hgone] at hdel
            exact hadd.trans hdel
      · rw [hrun] at hadd
        exact hadd

theorem editPlan (name : String) {json : Obj} (planMaximums : Obj) (hform : "owner" ∉ json) :
    SamePlaces s (s.editPlan name json planMaximums).1 := by
  unfold Store.editPlan
  cases hP : s.plans.get? name with
  | none => exact .refl s
  | some P =>
    have howner : (editedPlan P json planMaximums).owner = P.owner := by
      change (P.extend json).owner = P.owner
      rw [Plan.extend_owner]
      exact overlay_absent hform _ _
    dsimp only
    rcases hr : (s.setPlan name (editedPlan P json planMaximums)).updatePlan name .live with ⟨s', r⟩
    rcases updatePlan_cases hr with ⟨hsame, -⟩ | ⟨s₁, data₁, -, -, -, hsame, hdata, -, rfl, -⟩
    · exact (setPlan hP howner).trans (of_resuspended hsame)
    · cases data₁ with
      | copy d => cases hdata
      | live => exact (setPlan hP howner).trans (of_resuspended hsame)

variable (h : SamePlaces s s')
include h

theorem getParentPlanName (p : String) : s'.getParentPlanName p = s.getParentPlanName p := by
  rw [getParentPlanName_eq, getParentPlanName_eq, h.owners]
  exact congrArg _ (funext fun o => by rw [h.plans])

theorem getUserPath (hpath : s.getUserPath apps_folder p u = .ok path) : s'.getUserPath apps_folder p u = .ok path :=
  getUserPath_transport hpath h.fuel fun _ _ q _ => h.getParentPlanName q

theorem user (hV : s'.users.get? u = some V) : ∃ U, s.users.get? u = some U ∧ U.plan = V.plan := by
  rw [← planOf_eq, ← h.plans, planOf_of_get? hV]

theorem mem_users : u ∈ s'.users ↔ u ∈ s.users := by
  rw [← planOf_isSome, h.plans, planOf_isSome]

theorem mem_plans : p ∈ s'.plans ↔ p ∈ s.plans := by
  rw [← ownerOf_isSome, h.owners, ownerOf_isSome]

end SamePlaces

end Store

namespace Sessions
variable {s s' s₁ : Sessions} {db : Store} {apps_folder : List Char} {sid username : String} {a u : ActiveUser}

namespace Carries

theorem refl (s : Sessions) : Carries s s := fun _ a _ ha hpath => ⟨a, ha, rfl, hpath⟩

theorem trans (h : Carries s s₁) (h' : Carries s₁ s') : Carries s s' := by
  intro sid a path ha hpath
  obtain ⟨b, hb, hname, hbpath⟩ := h' sid a path ha hpath
  obtain ⟨b', hb', hname', hpath'⟩ := h sid b path hb hbpath
  exact ⟨b', hb', hname'.trans hname, hpath'⟩

/-- Sessions that are there with the same user and home folder are carried over. -/
theorem of_kept (h : ∀ sid a, s'.users.get? sid = some a → ∃ b, s.users.get? sid = some b ∧
    b.username = a.username ∧ b.path = a.path) : Carries s s' := by
  intro sid a path ha hpath
  obtain ⟨b, hb, hname, hsame⟩ := h sid a ha
  exact ⟨b, hb, hname, hsame.trans hpath⟩

theorem clearUser (sid : String) : Carries s (s.clearUser sid).1 := by
  unfold Sessions.clearUser
  split
  · exact .refl s
  · apply of_kept
    intro t a ha
    dsimp only at ha
    rw [Dict.get?_erase] at ha
    split at ha
    · cases ha
    · exact ⟨a, ha, rfl, rfl⟩

theorem clearIfNamed (username sid : String) : Carries s (clearIfNamed username s sid).1 := by
  unfold Sessions.clearIfNamed
  split
  · exact .refl s
  · split
    · exact .clearUser sid
    · exact .refl s

theorem clearUserByName (username : String) : Carries s (s.clearUserByName username).1 := by
  apply Collect.runAll_keeps (P := Carries s)
  · intro t sid _ ht
    exact ht.trans (.clearIfNamed username sid)
  · exact .refl s

theorem getUser (isPanelUninstalled : Bool) (now : Nat) : Carries s (s.getUser db isPanelUninstalled sid now).1 := by
  unfold Sessions.getUser
  cases ha : s.users.get? sid with
  | none => exact .refl s
  | some a =>
    dsimp only
    split
    · intro t b path hb
      cases hb
    · cases hrefresh : refresh db a with
      | error f => exact .refl s
      | ok u =>
        obtain ⟨hname, -, -, hpath⟩ := refresh_kept hrefresh
        apply of_kept
        intro t b hb
        dsimp only at hb
        rw [Dict.get?_set] at hb
        split at hb
        · next he =>
          cases hb
          exact ⟨a, he ▸ ha, hname.symm, hpath.symm⟩
        · exact ⟨b, hb, rfl, rfl⟩

/-- A session that begins keeps no home folder. -/
theorem loginUser (sid groupIdPrefix username : String) (ids : Option (Nat × Nat)) (now : Nat) :
    Carries s (s.loginUser sid groupIdPrefix username ids now).1 := by
  intro t a path ha hpath
  by_cases he : t = sid
  · rw [he] at ha
    cases ids with
    | none =>
      rw [Sessions.loginUser, Dict.get?_erase_self] at ha
      cases ha
    | some ids =>
      rw [Sessions.loginUser, Dict.get?_modify_self, Dict.get?_set_self] at ha
      cases ha
      cases hpath
  · have hold : s.users.get? t = some a := by
      cases ids with
      | none => rwa [Sessions.loginUser, Dict.get?_erase_ne _ he, Dict.get?_set_ne _ _ he] at ha
      | some ids => rwa [Sessions.loginUser, Dict.get?_modify_ne _ _ he, Dict.get?_set_ne _ _ he] at ha
    exact ⟨a, hold, rfl, hpath⟩

theorem after (s : Sessions) (e : SessionEvent) : Carries s (s.after e) := by
  cases e with
  | login sid groupIdPrefix username ids now => exact .loginUser sid groupIdPrefix username ids now
  | request db isPanelUninstalled sid now => exact .getUser isPanelUninstalled now
  | logout sid => exact .clearUser sid
  | clearByName username => exact .clearUserByName username
  | schedule => exact .refl s
  | check now => exact .refl s
  | deliver =>
    rw [Sessions.after, step, deliver]
    split
    · exact .refl s
    · next messages _ =>
      exact clearUser (s := { s with messages := messages }) _

end Carries

/-- Nothing is thrown on the way through the sessions. -/
theorem clearIfNamed_ok (username : String) (s : Sessions) (sid : String) :
    (clearIfNamed username s sid).2 = .ok () := by
  unfold clearIfNamed
  cases hu : s.users.get? sid with
  | none => rfl
  | some u =>
    dsimp only
    split
    · rw [clearUser, hu]
    · rfl

theorem clearIfNamed_gone (ha : (clearIfNamed username s sid).1.users.get? sid = some a) : a.username ≠ username := by
  unfold clearIfNamed at ha
  cases hu : s.users.get? sid with
  | none =>
    rw [hu] at ha
    exact absurd (hu.symm.trans ha) (by simp)
  | some u =>
    rw [hu] at ha
    dsimp only at ha
    split at ha
    · rw [clearUser, hu, Dict.get?_erase_self] at ha
      cases ha
    · next hne =>
      cases Option.some.inj (hu.symm.trans ha)
      exact hne

theorem clearIfNamed_get? (username : String) {t : String} (ha : (clearIfNamed username s sid).1.users.get? t = some a) :
    s.users.get? t = some a := by
  unfold clearIfNamed at ha
  cases hu : s.users.get? sid with
  | none =>
    rw [hu] at ha
    exact ha
  | some u =>
    rw [hu] at ha
    dsimp only at ha
    split at ha
    · rw [clearUser, hu] at ha
      dsimp only at ha
      rw [Dict.get?_erase] at ha
      split at ha
      · cases ha
      · exact ha
    · exact ha

/-- No session of the user is left. -/
theorem clearUserByName_gone (ha : (s.clearUserByName username).1.users.get? sid = some a) : a.username ≠ username := by
  have hall : ∀ (l : List String) (t : Sessions), (∀ sid a, t.users.get? sid = some a → a.username = username → sid ∈ l) →
      ∀ sid a, (Collect.runAll (clearIfNamed username) l t).1.users.get? sid = some a → a.username ≠ username := by
    intro l
    induction l with
    | nil =>
      intro t ht sid a ha he
      exact absurd (ht sid a ha he) List.not_mem_nil
    | cons x l ih =>
      intro t ht
      rw [Collect.runAll]
      rcases hr : clearIfNamed username t x with ⟨t', r⟩
      have hok := clearIfNamed_ok username t x
      rw [hr] at hok
      cases hok
      apply ih
      intro sid b hb he
      have hb' : (clearIfNamed username t x).1.users.get? sid = some b := by rw [hr]; exact hb
      rcases List.mem_cons.1 (ht sid b (clearIfNamed_get? username hb') he) with rfl | hmem
      · exact absurd he (clearIfNamed_gone hb')
      · exact hmem
  refine hall s.users.keys s (fun sid a ha _ => ?_) sid a ha
  exact Dict.mem_keys.2 (Dict.mem_of_get? ha)

/-- The session that is handed out is the one that is kept. -/
theorem getUser_stored {isPanelUninstalled : Bool} {now : Nat}
    (h : s.getUser db isPanelUninstalled sid now = (s', .ok (some a))) : s'.users.get? sid = some a := by
  unfold getUser at h
  split at h
  · cases h
  · split at h
    · cases h
    · dsimp only at h
      split at h
      · cases h
      · cases h
        exact Dict.get?_set_self _ _ _

end Sessions

/-- What goes on to the end went through each step. -/
theorem Outcome.andThen_done {r : Outcome} {next : Panel → Outcome} {q : Panel} :
    r.andThen next = (q, .ok none) ↔ ∃ p, r = (p, .ok none) ∧ next p = (q, .ok none) := by
  constructor
  · intro h
    rcases r with ⟨p, f | (_ | err)⟩
    · cases h
    · exact ⟨p, rfl, h⟩
    · cases h
  · rintro ⟨p, rfl, h⟩
    exact h

namespace Panel
variable {p q p₁ : Panel} {h : Helpers} {c : Submission} {apps_folder home : List Char} {id name username plan : String}
  {isUpdate : Option String}

/-- No home is put elsewhere, none is looked up anew, and no record is put elsewhere. -/
structure Stays (p q : Panel) : Prop where
  homes : q.homes = p.homes
  kept : Sessions.Carries p.sessions q.sessions
  places : Store.SamePlaces p.db q.db

theorem Stays.refl (p : Panel) : Stays p p := ⟨rfl, .refl _, .refl _⟩

theorem Stays.trans (h : Stays p p₁) (h' : Stays p₁ q) : Stays p q :=
  ⟨h'.homes.trans h.homes, h.kept.trans h'.kept, h.places.trans h'.places⟩

theorem setFtpAccess_stays (hname : name ∈ p.db.users) (json : Obj) : Stays p (p.setFtpAccess h name json).1 := by
  obtain ⟨U, hU⟩ := Dict.mem_iff.1 hname
  refine ⟨rfl, .refl _, ?_⟩
  rcases setFtpAccess_db (h := h) hU json with he | ⟨b, he⟩
  · rw [he]
    exact .refl _
  · rw [he]
    refine .setUser hU ?_
    have hkey : "ftp_access" ∉ userKeys := by decide
    rw [User.setFtpAccess, User.assign, dif_neg hkey]

theorem finishUser_stays (hname : name ∈ p.db.users) (json : Obj) : Stays p (p.finishUser h name json).1 := by
  rw [finishUser_fst]
  exact setFtpAccess_stays hname json

theorem endSessions_stays (name : String) (json : Obj) : Stays p (p.endSessions username name json).1 := by
  unfold endSessions
  split
  · exact ⟨rfl, .clearUserByName name, .refl _⟩
  · exact .refl p

/-- Once the record is written nothing is put elsewhere. -/
theorem writeUser_stays {U : User} (hU : p.db.users.get? name = some U) :
    Stays { p with db := p.db.setUser name (U.extend c.json) } (p.writeUser h username name c).1 := by
  have hedited : p.withStore (p.db.editUser name c.json) =
      ({ p with db := p.db.setUser name (U.extend c.json) }, .ok none) := by
    rw [Store.editUser_eq hU]
    rfl
  have hname : name ∈ (p.db.setUser name (U.extend c.json)).users := Dict.mem_set.2 (.inl rfl)
  unfold writeUser
  rw [hedited]
  dsimp only
  split
  · exact .refl _
  · apply Outcome.andThen_keeps (P := Stays { p with db := p.db.setUser name (U.extend c.json) })
    · exact endSessions_stays name c.json
    · intro _ hended
      split
      · exact hended
      · exact hended.trans (finishUser_stays (hended.places.mem_users.2 hname) c.json)

theorem sessionEditDomain_stays (id : String) : Stays p (p.sessionEditDomain h id c).1 := by
  unfold sessionEditDomain
  split
  · exact .refl p
  · split
    · exact .refl p
    · exact ⟨rfl, .refl _, .editDomain id c.json⟩

theorem sessionAddDomain_stays : Stays p (p.sessionAddDomain h username c).1 :=
  ⟨rfl, .refl _, .sessionAddDomain username c.json h.appCreateHomeDir⟩

theorem sessionEditPlan_stays (hform : c.OfForm) (hc : c.form = .addPlan) (id : String) :
    Stays p (p.sessionEditPlan id c).1 :=
  ⟨rfl, .refl _, .editPlan id c.planMaximums (hform.planJson_absent hc (by decide))⟩

/-- A home is there, and those that were not in the directory of the user are where they were. -/
structure Puts (homes : Dict String (List Char)) (name : String) (home : List Char)
    (homes' : Dict String (List Char)) : Prop where
  own : homes'.get? name = some home
  others : ∀ v path, v ≠ name → homes.get? v = some path →
    (∀ old, homes.get? name = some old → ¬Paths.Inside old path) → homes'.get? v = some path

theorem puts_set (homes : Dict String (List Char)) (name : String) (home : List Char) :
    Puts homes name home (homes.set name home) :=
  ⟨Dict.get?_set_self _ _ _, fun _ _ hv hpath _ => (Dict.get?_set_ne _ _ hv).trans hpath⟩

theorem puts_moveHome (homes : Dict String (List Char)) (name : String) (home : List Char) :
    Puts homes name home (moveHome homes name home) := by
  unfold moveHome
  cases hold : homes.get? name with
  | none => exact puts_set homes name home
  | some old =>
    refine ⟨Dict.get?_set_self _ _ _, fun v path hv hpath hout => ?_⟩
    rw [Dict.get?_set_ne _ _ hv, Dict.get?_mapVals, hpath, Option.map_some, if_neg (hout old hold)]

theorem Puts.keeps_home {homes : Dict String (List Char)} (hputs : Puts p.homes name home homes) {v : String}
    (hv : v ≠ name) (hout : ¬p.HomeIn name v) {path : List Char} (hpath : p.homes.get? v = some path) :
    homes.get? v = some path :=
  hputs.others v path hv hpath fun old hold hin => hout ⟨old, path, hold, hpath, hin⟩

theorem withHome_done {place : List Char → Dict String (List Char)}
    (hd : p.withHome h plan name place = (q, .ok none)) :
    ∃ home, p.db.getUserPath h.apps_folder plan name = .ok home ∧ q = { p with homes := place home } := by
  unfold withHome at hd
  cases hpath : p.db.getUserPath h.apps_folder plan name with
  | error f =>
    rw [hpath] at hd
    cases hd
  | ok home =>
    rw [hpath] at hd
    cases hd
    exact ⟨home, rfl, rfl⟩

theorem moveUserHome_done (hd : p.moveUserHome h name plan = (q, .ok none)) :
    ∃ home, p.db.getUserPath h.apps_folder plan name = .ok home ∧
      q = { p with homes := moveHome p.homes name home, sessions := (p.sessions.clearUserByName name).1 } := by
  obtain ⟨p₁, hmove, hd⟩ := Outcome.andThen_done.1 hd
  obtain rfl : p = p₁ := congrArg Prod.fst hmove
  obtain ⟨p₂, hplace, hd⟩ := Outcome.andThen_done.1 hd
  obtain ⟨home, hhome, rfl⟩ := withHome_done hplace
  exact ⟨home, hhome, (congrArg Prod.fst hd).symm⟩

/-- The home of a new user is made, or it is moved and his sessions end. -/
theorem makeAccount_done (hd : p.makeAccount h c = (q, .ok none)) :
    ∃ home, p.db.getUserPath h.apps_folder (prop c.json "plan").toKey c.name = .ok home ∧
      q.db = p.db ∧ Puts p.homes c.name home q.homes ∧ Sessions.Carries p.sessions q.sessions := by
  unfold makeAccount at hd
  split at hd
  · obtain ⟨home, hhome, rfl⟩ := moveUserHome_done hd
    exact ⟨home, hhome, rfl, puts_moveHome _ _ _, .clearUserByName c.name⟩
  · split at hd
    · split at hd
      · cases hd
      · cases hd
    · obtain ⟨p₁, hadd, hplace⟩ := Outcome.andThen_done.1 hd
      obtain rfl : p = p₁ := congrArg Prod.fst hadd
      obtain ⟨home, hhome, rfl⟩ := withHome_done hplace
      exact ⟨home, hhome, rfl, puts_set _ _ _, .refl _⟩

/-- A user that was added is in his plan, and his home where the plan says. -/
theorem sessionAddUser_done (hd : p.sessionAddUser h c = (q, .ok none)) : c.name ∉ p.db.users ∧
    ∃ parent home homes, p.db.plans.get? (prop c.json "plan").toKey = some parent ∧
      (p.db.attachUser (prop c.json "plan").toKey c.name (User.new c.name parent.name c.json)).getUserPath
        h.apps_folder (prop c.json "plan").toKey c.name = .ok home ∧ Puts p.homes c.name home homes ∧
      Stays { p with db := p.db.attachUser (prop c.json "plan").toKey c.name (User.new c.name parent.name c.json)
                     homes := homes } q := by
  have htry : p.tryAddUser h c = (q, .ok none) := by
    unfold sessionAddUser at hd
    split at hd
    · split at hd
      · split at hd
        · cases hd
        · cases hd
      · cases hd
    · exact hd
  obtain ⟨p₁, hadd, htry⟩ := Outcome.andThen_done.1 htry
  obtain ⟨p₂, hmake, hfinish⟩ := Outcome.andThen_done.1 htry
  rcases hrun : p.db.addUser (prop c.json "plan").toKey c.name c.json with ⟨s', r⟩
  rw [hrun] at hadd
  rcases Store.addUser_cases hrun with ⟨rfl, hr⟩ | ⟨hname, rfl, parent, hparent, -, rfl⟩
  · exact absurd (congrArg Prod.snd hadd) hr
  · cases hadd
    obtain ⟨home, hhome, hdb, hhomes, hkept⟩ := makeAccount_done hmake
    refine ⟨hname, parent, home, p₂.homes, hparent, hhome, hhomes, ?_⟩
    have hmem : c.name ∈ p₂.db.users := by
      rw [hdb]
      exact Dict.mem_set.2 (.inl rfl)
    have hfinished := finishUser_stays (h := h) hmem c.json
    rw [hfinish] at hfinished
    have hmade : Stays { p with db := p.db.attachUser (prop c.json "plan").toKey c.name (User.new c.name parent.name c.json)
                                homes := p₂.homes } p₂ := by
      refine ⟨rfl, hkept, ?_⟩
      rw [hdb]
      exact .refl _
    exact hmade.trans hfinished

/-- The edit of a user leaves him in his plan, or it moves his home and ends his sessions before. -/
theorem sessionEditUser_done (hd : p.sessionEditUser h username id c = (q, .ok none)) :
    ∃ U, p.db.users.get? id = some U ∧
      ((U.extend c.json).plan = U.plan ∧ Stays { p with db := p.db.setUser id (U.extend c.json) } q ∨
        ∃ new_plan home, c.json.get? "plan" = some new_plan ∧ JsVal.strictEq (.str U.plan) new_plan = false ∧
          p.db.getUserPath h.apps_folder new_plan.toKey id = .ok home ∧
            Stays { p with db := p.db.setUser id (U.extend c.json), homes := moveHome p.homes id home
                           sessions := (p.sessions.clearUserByName id).1 } q) := by
  unfold sessionEditUser at hd
  cases hU : p.db.users.get? id with
  | none =>
    rw [hU] at hd
    cases hd
  | some U =>
    rw [hU] at hd
    dsimp only at hd
    have hwritten : Stays _ (p.writeUser h username id c).1 := writeUser_stays hU
    refine ⟨U, rfl, ?_⟩
    cases hplan : c.json.get? "plan" with
    | none =>
      rw [hplan] at hd
      dsimp only at hd
      split at hd
      · rw [hd] at hwritten
        refine .inl ⟨?_, hwritten⟩
        rw [User.extend_plan]
        exact overlay_absent (Dict.get?_eq_none.1 hplan) _ _
      · cases hd
    | some new_plan =>
      rw [hplan] at hd
      dsimp only at hd
      split at hd
      · next hsame =>
        rw [hd] at hwritten
        refine .inl ⟨?_, hwritten⟩
        have hkey : new_plan = .str U.plan := by
          cases new_plan with
          | str t => rw [of_decide_eq_true (hsame : decide (U.plan = t) = true)]
          | _ => cases hsame
        rw [User.extend_plan, overlay_present hplan, hkey]
        rfl
      · next hdiffers =>
        obtain ⟨p₁, hmove, hwrite⟩ := Outcome.andThen_done.1 hd
        obtain ⟨home, hhome, rfl⟩ := moveUserHome_done hmove
        refine .inr ⟨new_plan, home, rfl, Bool.eq_false_iff.2 hdiffers, hhome, ?_⟩
        have hmoved : Stays _ (({ p with
            homes := moveHome p.homes id home
            sessions := (p.sessions.clearUserByName id).1 } : Panel).writeUser h username id c).1 := writeUser_stays hU
        rw [hwrite] at hmoved
        exact hmoved

namespace HomesFollow

theorem stays (hf : HomesFollow apps_folder p) (h : Stays p q) : HomesFollow apps_folder q := by
  refine ⟨fun v V hV => ?_, fun sid a path ha hpath => ?_, fun v V hV => ?_⟩
  · obtain ⟨U, hU, hplan⟩ := h.places.user hV
    obtain ⟨path, hpath, hhome⟩ := hf.homes v U hU
    rw [hplan] at hpath
    exact ⟨path, h.places.getUserPath hpath, h.homes ▸ hhome⟩
  · obtain ⟨b, hb, hname, hbpath⟩ := h.kept sid a path ha hpath
    obtain ⟨hmem, hhome⟩ := hf.kept sid b path hb hbpath
    rw [hname] at hmem hhome
    exact ⟨h.places.mem_users.2 hmem, h.homes ▸ hhome⟩
  · obtain ⟨U, hU, hplan⟩ := h.places.user hV
    exact hplan ▸ h.places.mem_plans.2 (hf.seated v U hU)

/-- A user who was not there before, at the home that his plan says. -/
theorem addUser (hf : HomesFollow apps_folder p) {U : User} {homes : Dict String (List Char)} (hname : name ∉ p.db.users)
    (hplan : U.plan = plan) (hmem : plan ∈ p.db.plans) (howners : ∀ q, p.db.ownerOf q ≠ some name)
    (hhome : (p.db.attachUser plan name U).getUserPath apps_folder plan name = .ok home)
    (hputs : Puts p.homes name home homes) (hout : ∀ v ∈ p.db.users, ¬p.HomeIn name v) :
    HomesFollow apps_folder { p with db := p.db.attachUser plan name U, homes := homes } := by
  have hsame : ∀ q, (p.db.attachUser plan name U).getParentPlanName q = p.db.getParentPlanName q := by
    intro q
    rw [Store.getParentPlanName_eq, Store.getParentPlanName_eq, Store.ownerOf_attachUser]
    cases ho : p.db.ownerOf q with
    | none => rfl
    | some o =>
      have hne : o ≠ name := by
        rintro rfl
        exact howners q ho
      rw [Option.bind_some, Option.bind_some, Store.planOf_attachUser, if_neg hne]
  have hplans : ∀ q, q ∈ (p.db.attachUser plan name U).plans ↔ q ∈ p.db.plans := fun q => Dict.mem_modify
  have hfuel : p.db.fuel ≤ (p.db.attachUser plan name U).fuel :=
    Nat.succ_le_succ (Dict.size_modify p.db.plans plan _).ge
  refine ⟨fun v V hV => ?_, fun sid a path ha hpath => ?_, fun v V hV => ?_⟩
  · change (p.db.users.set name U).get? v = some V at hV
    rw [Dict.get?_set] at hV
    split at hV
    · next he =>
      cases hV
      rw [he, hplan]
      exact ⟨home, hhome, hputs.own⟩
    · next hne =>
      obtain ⟨path, hpath, hold⟩ := hf.homes v V hV
      have hmem := Dict.mem_of_get? hV
      refine ⟨path, Store.getUserPath_transport hpath hfuel fun _ _ q _ => hsame q, ?_⟩
      exact hputs.keeps_home hne (hout v hmem) hold
  · obtain ⟨hold, hhome⟩ := hf.kept sid a path ha hpath
    have hne : a.username ≠ name := fun he => hname (he ▸ hold)
    exact ⟨Dict.mem_set.2 (.inr hold), hputs.keeps_home hne (hout a.username hold) hhome⟩
  · change (p.db.users.set name U).get? v = some V at hV
    rw [Dict.get?_set] at hV
    split at hV
    · cases hV
      exact (hplans _).2 (hplan.symm ▸ hmem)
    · exact (hplans _).2 (hf.seated v V hV)

/-- A plan that was not there before is on nobody's way. -/
theorem addPlan (hf : HomesFollow apps_folder p) {P : Plan} (o : String) (hname : name ∉ p.db.plans) :
    HomesFollow apps_folder { p with db := p.db.attachPlan o name P } := by
  have hsame : ∀ q ∈ p.db.plans, (p.db.attachPlan o name P).getParentPlanName q = p.db.getParentPlanName q := by
    intro q hq
    have hne : q ≠ name := fun he => hname (he ▸ hq)
    rw [Store.getParentPlanName_eq, Store.getParentPlanName_eq, Store.ownerOf_attachPlan, if_neg hne]
    exact congrArg _ (funext fun u => by rw [Store.planOf_attachPlan])
  have husers : ∀ v V, (p.db.attachPlan o name P).users.get? v = some V →
      ∃ U, p.db.users.get? v = some U ∧ U.plan = V.plan := by
    intro v V hV
    rw [← Store.planOf_eq, ← Store.planOf_attachPlan, Store.planOf_of_get? hV]
  refine ⟨fun v V hV => ?_, fun sid a path ha hpath => ?_, fun v V hV => ?_⟩
  · obtain ⟨U, hU, hplan⟩ := husers v V hV
    obtain ⟨path, hpath, hhome⟩ := hf.homes v U hU
    rw [hplan] at hpath
    refine ⟨path, Store.getUserPath_transport hpath ?_ fun arr harr q hq => hsame q ?_, hhome⟩
    · exact Nat.succ_le_succ (Dict.size_set_le _ _ _)
    · exact Store.mem_plans_of_way hf.seated harr (hplan ▸ hf.seated v U hU) q hq
  · obtain ⟨hold, hhome⟩ := hf.kept sid a path ha hpath
    exact ⟨Dict.mem_modify.2 hold, hhome⟩
  · obtain ⟨U, hU, hplan⟩ := husers v V hV
    exact Dict.mem_set.2 (.inr (hplan ▸ hf.seated v U hU))

/-- The user is moved without the homes of others, and his sessions are over. -/
theorem moveUser (hf : HomesFollow apps_folder p) {V : User} (hmem : V.plan ∈ p.db.plans)
    (halone : p.db.MovesAlone id V.plan) (hout : ∀ w ∈ p.db.users, w ≠ id → ¬p.HomeIn id w)
    (hhome : p.db.getUserPath apps_folder V.plan id = .ok home) :
    HomesFollow apps_folder { p with db := p.db.setUser id V, homes := moveHome p.homes id home
                                     sessions := (p.sessions.clearUserByName id).1 } := by
  have hputs := puts_moveHome p.homes id home
  refine ⟨fun v U hU => ?_, fun sid a path ha hpath => ?_, fun v U hU => ?_⟩
  · change (p.db.users.set id V).get? v = some U at hU
    rw [Dict.get?_set] at hU
    split at hU
    · next he =>
      cases hU
      rw [he]
      refine ⟨home, Store.getUserPath_transport hhome (Nat.le_refl _) fun arr harr r hr => ?_, ?_⟩
      · exact Store.getParentPlanName_setUser fun ho => (halone r ho).2 arr harr hr
      · exact hputs.own
    · next hne =>
      obtain ⟨path, hpath, hold⟩ := hf.homes v U hU
      refine ⟨path, Store.getUserPath_transport hpath (Nat.le_refl _) fun arr harr r hr => ?_, ?_⟩
      · exact Store.getParentPlanName_setUser fun ho => (halone r ho).1 v arr hne ⟨U, hU, harr⟩ hr
      · exact hputs.keeps_home hne (hout v (Dict.mem_of_get? hU) hne) hold
  · have hne := Sessions.clearUserByName_gone ha
    obtain ⟨b, hb, hname, hbpath⟩ := Sessions.Carries.clearUserByName id sid a path ha hpath
    obtain ⟨hold, hkept⟩ := hf.kept sid b path hb hbpath
    rw [hname] at hold hkept
    exact ⟨Dict.mem_set.2 (.inr hold), hputs.keeps_home hne (hout a.username hold hne) hkept⟩
  · change (p.db.users.set id V).get? v = some U at hU
    rw [Dict.get?_set] at hU
    split at hU
    · cases hU
      exact hmem
    · exact hf.seated v U hU

/-- What a session's home folder is looked up as. -/
theorem homeFolder (hf : HomesFollow apps_folder p) {a : ActiveUser} {sid : String}
    (ha : p.sessions.users.get? sid = some a)
    (hhome : Sessions.homeFolder p.db apps_folder a = .ok home) :
    a.username ∈ p.db.users ∧ p.homes.get? a.username = some home := by
  unfold Sessions.homeFolder at hhome
  cases hpath : a.path with
  | some path =>
    rw [hpath] at hhome
    obtain rfl : path = home := Except.ok.inj hhome
    exact hf.kept sid a path ha hpath
  | none =>
    rw [hpath] at hhome
    dsimp only at hhome
    cases hU : p.db.users.get? a.username with
    | none =>
      rw [hU] at hhome
      cases hhome
    | some U =>
      rw [hU] at hhome
      obtain ⟨path, hsaid, hplace⟩ := hf.homes a.username U hU
      cases Except.ok.inj (hhome.symm.trans hsaid)
      exact ⟨Dict.mem_of_get? hU, hplace⟩

/-- A home folder that is looked up may be kept with the session. -/
theorem keep (hf : HomesFollow apps_folder p) {a : ActiveUser} {sid : String} (ha : p.sessions.users.get? sid = some a)
    (hhome : Sessions.homeFolder p.db apps_folder a = .ok home) {f : ActiveUser → ActiveUser}
    (hname : ∀ u, (f u).username = u.username) (hpath : ∀ u, (f u).path = some home) :
    HomesFollow apps_folder { p with sessions := { p.sessions with users := p.sessions.users.modify sid f } } := by
  refine ⟨hf.homes, fun t b path hb hbpath => ?_, hf.seated⟩
  change (p.sessions.users.modify sid f).get? t = some b at hb
  by_cases he : t = sid
  · rw [he, Dict.get?_modify_self, ha] at hb
    cases hb
    rw [hpath] at hbpath
    cases hbpath
    rw [hname]
    exact hf.homeFolder ha hhome
  · rw [Dict.get?_modify_ne _ _ he] at hb
    exact hf.kept t b path hb hbpath

theorem sessions (hf : HomesFollow apps_folder p) {s : Sessions} (hs : Sessions.Carries p.sessions s) :
    HomesFollow apps_folder { p with sessions := s } := hf.stays ⟨rfl, hs, .refl _⟩

theorem openHome (hf : HomesFollow apps_folder p) (sid : String) :
    HomesFollow apps_folder (p.homeStep apps_folder (.openHome sid)) := by
  change HomesFollow apps_folder { p with sessions := (p.sessions.openHome p.db apps_folder sid).1 }
  unfold Sessions.openHome
  cases ha : p.sessions.users.get? sid with
  | none => exact hf
  | some a =>
    dsimp only
    cases hhome : Sessions.homeFolder p.db apps_folder a with
    | error f => exact hf
    | ok home =>
      apply hf.keep ha hhome
      · exact fun _ => rfl
      · exact fun _ => rfl

/-- The session that a terminal is asked for is looked up anew, and then told to be off or to keep its home. -/
theorem createTerminal (hf : HomesFollow apps_folder p) (isPanelUninstalled : Bool) (sid : String) (now : Nat) :
    HomesFollow apps_folder (p.homeStep apps_folder (.createTerminal isPanelUninstalled sid now)) := by
  change HomesFollow apps_folder
    { p with sessions := (p.sessions.createTerminal p.db isPanelUninstalled apps_folder sid now).1 }
  have hcarries : Sessions.Carries p.sessions (p.sessions.getUser p.db isPanelUninstalled sid now).1 :=
    .getUser isPanelUninstalled now
  have hget := hf.sessions hcarries
  unfold Sessions.createTerminal
  rcases hrun : p.sessions.getUser p.db isPanelUninstalled sid now with ⟨s, f | (_ | a)⟩
  · rw [hrun] at hget
    exact hget
  · rw [hrun] at hget
    exact hget
  · rw [hrun] at hget
    have ha : s.users.get? sid = some a := Sessions.getUser_stored hrun
    dsimp only
    rcases Sessions.sshAllowed p.db a with f | (_ | _)
    · exact hget
    · exact hget
    · dsimp only
      split
      · apply hget.sessions
        apply Sessions.Carries.of_kept
        intro t b hb
        change (s.users.modify sid fun u => { u with terminal := false }).get? t = some b at hb
        rw [Dict.get?_modify] at hb
        split at hb
        · obtain ⟨a', ha', rfl⟩ := Option.map_eq_some_iff.1 hb
          exact ⟨a', ha', rfl, rfl⟩
        · exact ⟨b, hb, rfl, rfl⟩
      · cases hhome : Sessions.homeFolder p.db apps_folder a with
        | error f => exact hget
        | ok home =>
          apply hget.keep ha hhome
          · exact fun _ => rfl
          · exact fun _ => rfl

/-- What is submitted in order leaves each home where the hierarchy says. -/
theorem submit (hf : HomesFollow apps_folder p) (ho : p.Orderly apps_folder (.submit h username isUpdate c)) :
    HomesFollow apps_folder (p.submit h username isUpdate c).1 := by
  obtain ⟨happs, hform, hclean, hdone | hsame⟩ := ho
  · unfold MovesCleanly at hclean
    unfold Panel.submit at hdone
    unfold Panel.submit
    cases isUpdate with
    | some id =>
      dsimp only at hdone ⊢
      cases hc : c.form with
      | addUser =>
        rw [hc] at hclean hdone
        dsimp only at hclean hdone ⊢
        obtain ⟨U, hU, ⟨hplan, hstays⟩ | ⟨new_plan, home, hget, hdiffers, hhome, hstays⟩⟩ :=
          sessionEditUser_done (Prod.ext rfl hdone)
        · have hwritten : Stays p { p with db := p.db.setUser id (U.extend c.json) } :=
            ⟨rfl, .refl _, .setUser hU hplan⟩
          exact hf.stays (hwritten.trans hstays)
        · obtain ⟨hmem, halone, hout⟩ := hclean U new_plan hU hget hdiffers
          have hplan : (U.extend c.json).plan = new_plan.toKey := by
            rw [User.extend_plan]
            exact overlay_present hget _ _
          rw [happs] at hhome
          rw [← hplan] at hmem halone hhome
          exact (hf.moveUser hmem halone hout hhome).stays hstays
      | addDomain => exact hf.stays (sessionEditDomain_stays id)
      | addPlan => exact hf.stays (sessionEditPlan_stays hform hc id)
    | none =>
      dsimp only at hdone ⊢
      split at hdone
      · cases hdone
      · next htruthy =>
        rw [if_neg htruthy]
        cases hc : c.form with
        | addUser =>
          rw [hc] at hclean hdone
          dsimp only at hclean hdone ⊢
          obtain ⟨hplan, howners, hout⟩ := hclean
          obtain ⟨v, hv⟩ := Dict.mem_iff.1 hplan
          obtain ⟨hname, parent, home, homes, hparent, hhome, hputs, hstays⟩ :=
            sessionAddUser_done (Prod.ext rfl hdone)
          rw [happs] at hhome
          refine (hf.addUser hname ?_ (Dict.mem_of_get? hparent) howners hhome hputs hout).stays hstays
          rw [User.new, User.extend_plan, overlay_present hv, prop, hv]
          rfl
        | addDomain => exact hf.stays sessionAddDomain_stays
        | addPlan =>
          rw [hc] at hdone
          dsimp only at hdone ⊢
          unfold sessionAddPlan withStore at hdone ⊢
          rcases hadd : p.db.addPlan (some username) c.name (newPlanJson c.json c.planMaximums) with ⟨s', r⟩
          rw [hadd] at hdone
          rcases Store.addPlan_cases hadd with ⟨-, hne⟩ | ⟨hname, -, ⟨he, -⟩ | ⟨o, -, -, P, -, -, -, -, -, rfl⟩⟩
          · exact absurd hdone hne
          · cases he
          · exact hf.addPlan o hname
  · rw [hsame]
    exact hf

theorem step (hf : HomesFollow apps_folder p) (e : HomeEvent) (ho : p.Orderly apps_folder e) :
    HomesFollow apps_folder (p.homeStep apps_folder e) := by
  cases e with
  | submit h username isUpdate c => exact hf.submit ho
  | session e => exact hf.sessions (.after p.sessions e)
  | openHome sid => exact hf.openHome sid
  | createTerminal isPanelUninstalled sid now => exact hf.createTerminal isPanelUninstalled sid now

end HomesFollow

theorem HomesFollow.of_reached {ftp : Ftp}
    (h : Runs.Reached (homeStep apps_folder) (newPanel ftp) (Orderly apps_folder) p) : HomesFollow apps_folder p := by
  apply h.keeps (P := HomesFollow apps_folder)
  · refine ⟨fun v V hV => ?_, fun sid a path ha => ?_, fun v V hV => ?_⟩
    · cases hV
    · cases ha
    · cases hV
  · exact fun p e hf ho => hf.step e ho

/-- The user of a plan that is not his own is moved to another that is not below his own either. -/
structure Resettles (p : Panel) (id old_plan new_plan : String) : Prop where
  seat : p.db.planOf id = some old_plan
  differs : old_plan ≠ new_plan
  there : new_plan ∈ p.db.plans
  named : old_plan ≠ "" ∧ new_plan ≠ ""
  own : p.db.ownerOf old_plan ≠ some id
  clear : ∀ q arr, p.db.ownerOf q = some id → p.db.pathPlans p.db.fuel new_plan = .ok arr → q ∉ arr

/-- Once a user is moved, the home of another user that was not in his directory is where the hierarchy says
just if none of the plans above him is the moved user's, or the old and the new plan of that user have the same
directory. -/
theorem left_behind_iff {V : User} {old_plan new_plan v : String} {arr : List String} (hf : HomesFollow apps_folder p)
    (hm : p.Resettles id old_plan new_plan) (hplan : c.json.get? "plan" = some (.str new_plan))
    (hd : p.sessionEditUser h username id c = (q, .ok none)) (hv : v ≠ id) (hout : ¬p.HomeIn id v)
    (hV : p.db.users.get? v = some V) (hway : p.db.pathPlans p.db.fuel V.plan = .ok arr) :
    (∃ path, q.db.getUserPath apps_folder V.plan v = .ok path ∧ q.homes.get? v = some path) ↔
      (∀ r ∈ arr, p.db.ownerOf r ≠ some id) ∨
        p.db.getPlanPath apps_folder old_plan = p.db.getPlanPath apps_folder new_plan := by
  obtain ⟨U, hU, hold⟩ := Store.planOf_eq.1 hm.seat
  have hextended : (U.extend c.json).plan = new_plan := by
    rw [User.extend_plan]
    exact overlay_present hplan _ _
  obtain ⟨U', hU', ⟨hkept, -⟩ | ⟨new, home, hget, -, hhome, hstays⟩⟩ := sessionEditUser_done hd
  · cases Option.some.inj (hU.symm.trans hU')
    exact absurd (hold.symm.trans (hkept.symm.trans hextended)) hm.differs
  · cases Option.some.inj (hU.symm.trans hU')
    obtain rfl : JsVal.str new_plan = new := Option.some.inj (hplan.symm.trans hget)
    -- the ways to the two plans and the user's home before
    obtain ⟨down, hdown, -⟩ := Store.getUserPath_ok hhome
    change p.db.pathPlans p.db.fuel new_plan = .ok down at hdown
    obtain ⟨oldHome, hwas, -⟩ := hf.homes id U hU
    obtain ⟨top, htop, -⟩ := Store.getUserPath_ok hwas
    rw [hold] at htop
    obtain ⟨path, hpath, hplaced⟩ := hf.homes v V hV
    have hsaid := hpath.symm.trans (Store.getUserPath_of_pathPlans apps_folder hway v)
    have hhomes : q.homes.get? v = some path := by
      rw [hstays.homes]
      exact (puts_moveHome p.homes id home).keeps_home hv hout hplaced
    have hclear : ∀ r ∈ down, p.db.ownerOf r ≠ some id := fun r hr ho => hm.clear r down ho hdown hr
    have hend : p.db.ownerOf new_plan ≠ some id := by
      obtain ⟨above, rfl⟩ := Store.pathPlans_last hdown hm.named.2
      exact hclear new_plan (List.mem_append_right _ (List.mem_singleton_self _))
    have hdown' : (p.db.setUser id (U.extend c.json)).pathPlans p.db.fuel (U.extend c.json).plan = .ok down := by
      rw [hextended]
      exact Store.pathPlans_transport hdown fun r hr => Store.getParentPlanName_setUser (hclear r hr)
    have hseated : ∀ w W, (p.db.setUser id (U.extend c.json)).users.get? w = some W →
        W.plan ∈ (p.db.setUser id (U.extend c.json)).plans := by
      intro w W hW
      change (p.db.users.set id (U.extend c.json)).get? w = some W at hW
      rw [Dict.get?_set] at hW
      split at hW
      · cases hW
        rw [hextended]
        exact hm.there
      · exact hf.seated w W hW
    have hpathOf : ∀ {l : List String} {m : Nat}, (p.db.setUser id (U.extend c.json)).pathPlans m V.plan = .ok l →
        q.db.getUserPath apps_folder V.plan v =
          .ok (apps_folder ++ '/' :: (['/'].intercalate (l.map encodedName) ++ '/' :: v.toList)) := by
      intro l m hl
      apply hstays.places.getUserPath
      exact Store.getUserPath_of_pathPlans apps_folder (Store.pathPlans_fuel hseated hl (hf.seated v V hV)) v
    have hplanPath : p.db.getPlanPath apps_folder old_plan = p.db.getPlanPath apps_folder new_plan ↔
        ['/'].intercalate (top.map encodedName) = ['/'].intercalate (down.map encodedName) := by
      rw [Store.getPlanPath, Store.getPlanPath, Store.getUserPath_of_pathPlans apps_folder htop,
        Store.getUserPath_of_pathPlans apps_folder hdown, Except.ok.injEq, List.append_cancel_left_eq,
        List.cons_eq_cons, and_iff_right rfl, List.append_cancel_right_eq]
    rcases Store.pathPlans_moved hm.seat hm.own htop hdown' (hextended ▸ hend) (Nat.le_refl _) hway with
      ⟨hall, hsame⟩ | ⟨r, rest, rfl, hr, hmoved⟩
    · refine iff_of_true ⟨path, ?_, hhomes⟩ (.inl hall)
      rw [hpathOf hsame, Except.ok.inj hsaid]
    · have hlost : ¬∀ s ∈ top ++ r :: rest, p.db.ownerOf s ≠ some id := by
        intro hall
        exact hall r (List.mem_append_right _ List.mem_cons_self) hr
      have htopNe : top ≠ [] := by
        obtain ⟨above, rfl⟩ := Store.pathPlans_last htop hm.named.1
        exact List.append_ne_nil_of_right_ne_nil _ (List.cons_ne_nil _ _)
      have hdownNe : down ≠ [] := by
        obtain ⟨above, rfl⟩ := Store.pathPlans_last hdown hm.named.2
        exact List.append_ne_nil_of_right_ne_nil _ (List.cons_ne_nil _ _)
      have hsamePath := @Store.samePath_iff apps_folder v top down rest r htopNe hdownNe
      rw [or_iff_right hlost, hplanPath, ← hsamePath, hpathOf hmoved, ← Except.ok.inj hsaid]
      constructor
      · rintro ⟨path', hnew, hat⟩
        rw [Except.ok.inj hnew]
        exact Option.some.inj (hat.symm.trans hhomes)
      · intro he
        exact ⟨path, congrArg Except.ok he, hhomes⟩

theorem not_homeIn_of_entries {name : String} (hout : ∀ e ∈ p.homes.entries, e.1 ≠ name →
    ∀ home, p.homes.get? name = some home → ¬Paths.Inside home e.2) {v : String} (hv : v ≠ name) : ¬p.HomeIn name v := by
  rintro ⟨home, path, hhome, hpath, hin⟩
  exact hout (v, path) (Dict.get?_eq_some.1 hpath) hv home hhome hin

theorem not_homeIn {u : String} (h : p.homes.get? u = none) (v : String) : ¬p.HomeIn u v := by
  rintro ⟨home, path, hhome, -⟩
  rw [h] at hhome
  cases hhome

theorem ownerOf_ne {s : Store} {u : String} (h : ∀ e ∈ s.plans.entries, e.2.owner ≠ u) (q : String) :
    s.ownerOf q ≠ some u := by
  intro ho
  obtain ⟨Q, hQ, he⟩ := Store.ownerOf_eq.1 ho
  exact h (q, Q) (Dict.get?_eq_some.1 hQ) he

/-- The form for a user in a plan. -/
def seatForm (name plan : String) : Submission :=
  { eveForm with json := Dict.ofList [("name", .str name), ("plan", .str plan), ("panel_access", .bool true)] }

theorem seatForm_ofForm (name plan : String) : (seatForm name plan).OfForm := by
  intro k hk
  have hkeys : k ∈ ["name", "plan", "panel_access"] := hk
  exact (show ["name", "plan", "panel_access"] ⊆ RecordForm.addUser.fields by decide) hkeys

/-- Two resellers, and a user below one of them. -/
def resellerEvents : List HomeEvent :=
  [.submit readyHelpers "root" none (seatForm "ann" unlimitedPlanName),
    .submit readyHelpers "root" none (seatForm "dan" unlimitedPlanName),
    .submit readyHelpers "ann" none (PlanDesk.planNamed "silver"), .submit readyHelpers "dan" none (PlanDesk.planNamed "gold"),
    .submit readyHelpers "ann" none (seatForm "bob" "silver")]

def resellers : Panel :=
  resellerEvents.foldl (homeStep readyHelpers.apps_folder) (newPanel (Ftp.start (some sampleConf)))

/-- The first reseller moves to the plan of the second one: the home of the user below him stays. -/
theorem left_behind_sample : ¬∃ path,
    (resellers.sessionEditUser readyHelpers "dan" "ann" (seatForm "ann" "gold")).1.db.getUserPath
      readyHelpers.apps_folder "silver" "bob" = .ok path ∧
    (resellers.sessionEditUser readyHelpers "dan" "ann" (seatForm "ann" "gold")).1.homes.get? "bob" = some path := by
  have hreached : Runs.Reached (homeStep readyHelpers.apps_folder) (newPanel (Ftp.start (some sampleConf)))
      (Orderly readyHelpers.apps_folder) resellers := by
    apply Runs.Reached.run .start
    exact ⟨⟨rfl, seatForm_ofForm _ _, ⟨by decide, ownerOf_ne (by decide), fun v _ => not_homeIn rfl v⟩, .inl rfl⟩,
      ⟨rfl, seatForm_ofForm _ _, ⟨by decide, ownerOf_ne (by decide), fun v _ => not_homeIn rfl v⟩, .inl rfl⟩,
      ⟨rfl, PlanDesk.planNamed_ofForm _, trivial, .inl rfl⟩, ⟨rfl, PlanDesk.planNamed_ofForm _, trivial, .inl rfl⟩,
      ⟨rfl, seatForm_ofForm _ _, ⟨by decide, ownerOf_ne (by decide), fun v _ => not_homeIn rfl v⟩, .inl rfl⟩, trivial⟩
  have hm : resellers.Resettles "ann" unlimitedPlanName "gold" := by
    refine ⟨rfl, by decide, by decide, by decide, by decide, fun q arr ho harr hq => ?_⟩
    obtain rfl : [unlimitedPlanName, "gold"] = arr := Except.ok.inj harr
    revert ho
    rcases List.mem_cons.1 hq with rfl | hq
    · decide
    · rw [List.mem_singleton.1 hq]
      decide
  obtain ⟨V, hV, hplan⟩ := Store.planOf_eq.1 (show resellers.db.planOf "bob" = some "silver" from rfl)
  have hway : resellers.db.pathPlans resellers.db.fuel V.plan = .ok [unlimitedPlanName, "silver"] := by
    rw [hplan]
    rfl
  have hout : ¬resellers.HomeIn "ann" "bob" := by
    apply not_homeIn_of_entries _ (by decide)
    rintro e he hne home ⟨⟩
    revert e
    decide +kernel
  have hiff := left_behind_iff (c := seatForm "ann" "gold") (HomesFollow.of_reached hreached) hm rfl
    (show resellers.sessionEditUser readyHelpers "dan" "ann" (seatForm "ann" "gold") = _ from Prod.ext rfl rfl)
    (by decide) hout hV hway
  rw [hplan] at hiff
  intro hfollows
  rcases hiff.1 hfollows with hall | hsame
  · exact hall "silver" (by decide) rfl
  · revert hsame
    decide

end Panel
end JXPanel
