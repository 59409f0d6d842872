import JXPanel.Refusals
import JXPanel.Requests
import JXPanel.Rollback
import JXPanel.Terminal

namespace JXPanel
set_option autoImplicit true

/-- A later store has no plan, user or domain that an earlier one has not. -/
structure NothingNew (s s' : Store) : Prop where
  plans : ∀ k ∈ s'.plans, k ∈ s.plans
  users : ∀ k ∈ s'.users, k ∈ s.users
  domains : ∀ k, (s'.getDomain? k).isSome → (s.getDomain? k).isSome

theorem NothingNew.refl (s : Store) : NothingNew s s := ⟨fun _ h => h, fun _ h => h, fun _ h => h⟩

namespace Store

variable {s s' : Store} {w parent name : String} {opts : Obj}

end Store

namespace Panel
variable {p : Panel} {h : Helpers} {c : Submission} {w id : String}

end Panel

theorem Sessions.refresh_edits {db : Store} {a u : ActiveUser} (h : refresh db a = .ok u) :
    u.username = a.username ∧ u.edits = a.edits := by
  unfold refresh at h
  cases hU : db.users.get? a.username with
  | none =>
    rw [hU] at h
    cases h
    exact ⟨rfl, rfl⟩
  | some user =>
    rw [hU] at h
    dsimp only at h
    cases hP : db.plans.get? user.plan with
    | none =>
      rw [hP] at h
      cases h
    | some P =>
      rw [hP] at h
      cases h
      exact ⟨rfl, rfl⟩

namespace Client
variable (x : Client) (form : RecordForm)

/-- The check of `getForm` lets the form pass. -/
def Opens : Prop := ∃ a, (x.checkUser true form.name).2 = .ok (.passed a)

/-- Whether the user of a session is suspended, as the store has it. -/
def isSuspended (a : ActiveUser) : Bool :=
  ((x.panel.db.users.get? a.username).map fun U => U.suspended.truthy).getD a.suspended_txt

variable {x form}

def run (x : Client) (requests : List ClientRequest) : Client := requests.foldl answer x

end Client
end JXPanel
