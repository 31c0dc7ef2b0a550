import Zeron.Lib.Run

/-!
# The cache of peer links

`LinkCache`: the calls of `client`, each between its awaits and locks, the watcher of the token
source, and `disconnect_all`.

* `World`, `Action`, `step`;
* `Revoked`: **no call returns a link from before a sign-out**;
* `Orderly`: when a step keeps it; **`links_revoked`**;
* `dial_outlives_sign_out`: a dial that lasts through a sign-out and a sign-in.
-/

namespace Zeron.Peer

open Run

/-- `DIAL_ATTEMPTS`. -/
def dialAttempts : ℕ := 3

/-- A token or the link that was dialed with it, told apart by the sign-outs before it was read. -/
structure Link where
  session : ℕ
  deriving DecidableEq, Repr

/-- Where a call of `client` is. -/
inductive Call where
  | idle
  /-- The flag was down. -/
  | admitted (device : String)
  /-- No link was cached, and the device is not dark. -/
  | queued (device : String)
  /-- The call has the dial lock. -/
  | holding (device : String)
  | dialing (device : String) (attempt : ℕ)
  /-- `dial` has its token. -/
  | connecting (device : String) (attempt : ℕ) (token : Link)
  deriving DecidableEq, Repr

/-- Where the watcher of the token source is. -/
inductive Watcher where
  | idle
  | awake
  /-- `token()` has answered; whether it is signed out. -/
  | told (signedOut : Bool)
  /-- The flag is up, since so many sign-outs, and the links are to be cleared. -/
  | clearing (since : ℕ)
  deriving DecidableEq, Repr

/-- A link that a call returned, and the sign-outs until then. -/
structure Return where
  device : String
  link : Link
  signOuts : ℕ
  deriving DecidableEq, Repr

/-- The token source, the watcher and the cache. `flagged` and `swept` record of the sign-outs which
was the last when the flag was last raised, and which the last one that a sweep has followed: the
flag raised, then the links cleared. -/
structure World where
  signedIn : Bool
  signOuts : ℕ
  changed : Bool
  watcher : Watcher
  revoked : Bool
  links : String → Option Link
  dialLocks : String → Option ℕ
  calls : ℕ → Call
  disconnects : ℕ → Option ℕ
  flagged : ℕ
  swept : ℕ
  returned : List Return

/-- Signed in, nothing cached. -/
def World.start : World where
  signedIn := true
  signOuts := 0
  changed := false
  watcher := .idle
  revoked := false
  links := fun _ => none
  dialLocks := fun _ => none
  calls := fun _ => .idle
  disconnects := fun _ => none
  flagged := 0
  swept := 0
  returned := []

inductive Action where
  | signOut
  | signIn
  /-- The token is replaced, in the same session. -/
  | rotate
  /-- The watcher sees that the token has changed. -/
  | watch
  /-- The watcher's `token()`; `ok` says if a token can be had. -/
  | read (ok : Bool)
  | lower
  | raise
  | clear
  /-- `disconnect_all`, up to the flag. -/
  | disconnect (p : ℕ)
  /-- The rest of `disconnect_all`. -/
  | clearAll (p : ℕ)
  /-- A wake clears the links. -/
  | wake
  /-- `invalidate`, or a link that has closed. -/
  | drop (device : String)
  | enter (p : ℕ) (device : String)
  | lookup (p : ℕ)
  | acquire (p : ℕ)
  | recheck (p : ℕ)
  | token (p : ℕ)
  | dialed (p : ℕ)
  /-- An attempt fails: no token, no connection or no answer. -/
  | dialFailed (p : ℕ)
  /-- The call returns an error: the device is dark or cooling. -/
  | refuse (p : ℕ)
  deriving DecidableEq, Repr

namespace World

def setCall (w : World) (p : ℕ) (c : Call) : World :=
  { w with calls := Function.update w.calls p c }

/-- The call ends, and gives the dial lock back. -/
def release (w : World) (p : ℕ) (device : String) : World :=
  { w.setCall p .idle with dialLocks := Function.update w.dialLocks device none }

/-- The call returns a link. -/
def give (w : World) (device : String) (link : Link) : World :=
  { w with returned := w.returned ++ [{ device, link, signOuts := w.signOuts }] }

def raiseFlag (w : World) : World := { w with revoked := true, flagged := w.signOuts }

/-- The links are cleared, after a flag that was raised when there were `since` sign-outs. -/
def clearLinks (w : World) (since : ℕ) : World :=
  { w with links := fun _ => none, swept := max w.swept since }

end World

/-- What a call does with the failure of its attempt. -/
def retry (w : World) (p : ℕ) (device : String) (attempt : ℕ) : World :=
  if attempt + 1 < dialAttempts then w.setCall p (.dialing device (attempt + 1))
  else w.release p device

/-- One step. -/
def step (w : World) : Action → Option World
  | .signOut =>
    if w.signedIn then
      some { w with signedIn := false, signOuts := w.signOuts + 1, changed := true }
    else none
  | .signIn => if w.signedIn then none else some { w with signedIn := true, changed := true }
  | .rotate => if w.signedIn then some { w with changed := true } else none
  | .watch =>
    if w.watcher = .idle ∧ w.changed then some { w with watcher := .awake, changed := false }
    else none
  | .read ok =>
    if w.watcher = .awake then
      some { w with
        watcher := if w.signedIn then (if ok then .told false else .idle) else .told true }
    else none
  | .lower =>
    if w.watcher = .told false then some { w with watcher := .idle, revoked := false } else none
  | .raise =>
    if w.watcher = .told true then some { w.raiseFlag with watcher := .clearing w.signOuts }
    else none
  | .clear =>
    match w.watcher with
    | .clearing since => some { w.clearLinks since with watcher := .idle }
    | _ => none
  | .disconnect p =>
    match w.disconnects p with
    | none => some { w.raiseFlag with
        disconnects := Function.update w.disconnects p (some w.signOuts) }
    | some _ => none
  | .clearAll p =>
    match w.disconnects p with
    | some since => some { w.clearLinks since with
        disconnects := Function.update w.disconnects p none }
    | none => none
  | .wake => if w.watcher = .idle then some { w with links := fun _ => none } else none
  | .drop device => some { w with links := Function.update w.links device none }
  | .enter p device =>
    match w.calls p with
    | .idle => some (if w.revoked then w else w.setCall p (.admitted device))
    | _ => none
  | .lookup p =>
    match w.calls p with
    | .admitted device =>
      match w.links device with
      | some link => some ((w.give device link).setCall p .idle)
      | none => some (w.setCall p (.queued device))
    | _ => none
  | .acquire p =>
    match w.calls p with
    | .queued device =>
      match w.dialLocks device with
      | none => some { w.setCall p (.holding device) with
          dialLocks := Function.update w.dialLocks device (some p) }
      | some _ => none
    | _ => none
  | .recheck p =>
    match w.calls p with
    | .holding device =>
      match w.links device with
      | some link => some ((w.give device link).release p device)
      | none => some (w.setCall p (.dialing device 0))
    | _ => none
  | .token p =>
    match w.calls p with
    | .dialing device attempt =>
      if w.signedIn then
        some (w.setCall p (.connecting device attempt { session := w.signOuts }))
      else none
    | _ => none
  | .dialed p =>
    match w.calls p with
    | .connecting device _ token =>
      some (if w.revoked then w.release p device
        else ({ w with links := Function.update w.links device (some token) }.give device
          token).release p device)
    | _ => none
  | .dialFailed p =>
    match w.calls p with
    | .dialing device attempt => some (retry w p device attempt)
    | .connecting device attempt _ => some (retry w p device attempt)
    | _ => none
  | .refuse p =>
    match w.calls p with
    | .admitted _ => some (w.setCall p .idle)
    | .holding device => some (w.release p device)
    | _ => none

/-- **No call returns a link whose dial got its token before a sign-out.** -/
def Revoked (w : World) : Prop := ∀ r ∈ w.returned, r.link.session = r.signOuts

/-- The last sign-out has been followed by a sweep. -/
def Swept (w : World) : Prop := w.swept = w.signOuts

/-- No dial is in flight with a token from before the last sign-out. -/
def NoneStale (w : World) : Prop :=
  ∀ p device attempt token, w.calls p = .connecting device attempt token →
    token.session = w.signOuts

/-- No call returns a link between a sign-out and the sweep that follows it, and the watcher takes
the flag down only when no dial is in flight with a token from before the last sign-out. -/
def Orderly (w : World) : Action → Prop
  | .lookup p => ∀ device, w.calls p = .admitted device → w.links device ≠ none → Swept w
  | .recheck p => ∀ device, w.calls p = .holding device → w.links device ≠ none → Swept w
  | .dialed _ => w.revoked = false → Swept w
  | .lower => NoneStale w
  | _ => True

/-! ## The invariant -/

/-- What holds in every state of an orderly run. -/
structure Invariant (w : World) : Prop where
  flagged : w.flagged ≤ w.signOuts
  swept : w.swept ≤ w.flagged
  clearing : ∀ n, w.watcher = .clearing n → n ≤ w.flagged
  disconnects : ∀ p n, w.disconnects p = some n → n ≤ w.flagged
  tokens : w.flagged = w.signOuts → w.revoked = false → NoneStale w
  links : Swept w → ∀ device link, w.links device = some link → link.session = w.signOuts
  returned : Revoked w

theorem invariant_start : Invariant World.start where
  flagged := le_rfl
  swept := le_rfl
  clearing := fun _ h => by cases h
  disconnects := fun _ _ h => by cases h
  tokens := fun _ _ _ _ _ _ h => by cases h
  links := fun _ _ _ h => by cases h
  returned := fun _ h => absurd h List.not_mem_nil

namespace Invariant

variable {w w' : World} {p : ℕ} {device : String} {link : Link}

theorem setCall (h : Invariant w) {c : Call}
    (hc : ∀ device attempt token, c = .connecting device attempt token →
      token.session = w.signOuts) : Invariant (w.setCall p c) := by
  refine { h with tokens := fun hf hr q device attempt token hq => ?_ }
  simp only [World.setCall, Function.update_apply] at hq
  split_ifs at hq
  · exact hc device attempt token hq
  · exact h.tokens hf hr q device attempt token hq

theorem release (h : Invariant w) : Invariant (w.release p device) :=
  { h.setCall (p := p) (c := .idle) (fun _ _ _ hc => by cases hc) with }

theorem give (h : Invariant w) (hlink : link.session = w.signOuts) :
    Invariant (w.give device link) := by
  refine { h with returned := fun r hr => ?_ }
  rcases List.mem_append.mp hr with hr | hr
  · exact h.returned r hr
  · rw [List.mem_singleton.mp hr]
    exact hlink

theorem raiseFlag (h : Invariant w) : Invariant w.raiseFlag where
  flagged := le_rfl
  swept := h.swept.trans h.flagged
  clearing := fun n hn => (h.clearing n hn).trans h.flagged
  disconnects := fun p n hn => (h.disconnects p n hn).trans h.flagged
  tokens := fun _ hr => by cases hr
  links := h.links
  returned := h.returned

theorem clearLinks (h : Invariant w) {since : ℕ} (hs : since ≤ w.flagged) :
    Invariant (w.clearLinks since) where
  flagged := h.flagged
  swept := max_le h.swept hs
  clearing := h.clearing
  disconnects := h.disconnects
  tokens := h.tokens
  links := fun _ _ _ hl => by cases hl
  returned := h.returned

theorem insert (h : Invariant w) (hlink : link.session = w.signOuts) :
    Invariant { w with links := Function.update w.links device (some link) } := by
  refine { h with links := fun hs d l hl => ?_ }
  simp only [Function.update_apply] at hl
  split_ifs at hl
  · cases hl; exact hlink
  · exact h.links hs d l hl

theorem drop (h : Invariant w) :
    Invariant { w with links := Function.update w.links device none } := by
  refine { h with links := fun hs d l hl => ?_ }
  simp only [Function.update_apply] at hl
  split_ifs at hl
  exact h.links hs d l hl

theorem retry (h : Invariant w) (attempt : ℕ) : Invariant (retry w p device attempt) := by
  unfold Peer.retry
  split_ifs
  · exact h.setCall fun _ _ _ hc => by cases hc
  · exact h.release

theorem noneStale (h : Invariant w) (hs : Swept w) (hr : w.revoked = false) : NoneStale w := by
  have hswept := h.swept
  have hflagged := h.flagged
  unfold Swept at hs
  exact h.tokens (by omega) hr

end Invariant

/-- **One step.** -/
theorem invariant_step {w w' : World} {a : Action} (h : Invariant w) (hg : Orderly w a)
    (hw : step w a = some w') : Invariant w' := by
  cases a with
  | signOut =>
    simp only [step] at hw
    split_ifs at hw with hin
    cases hw
    have hflagged := h.flagged
    have hswept := h.swept
    exact {
      flagged := Nat.le_succ_of_le hflagged
      swept := hswept
      clearing := h.clearing
      disconnects := h.disconnects
      tokens := fun hf => absurd hf (by simp only; omega)
      links := fun hs => absurd hs (by simp only [Swept]; omega)
      returned := h.returned }
  | signIn =>
    simp only [step] at hw
    split_ifs at hw
    cases hw
    exact { h with }
  | rotate =>
    simp only [step] at hw
    split_ifs at hw
    cases hw
    exact { h with }
  | watch =>
    simp only [step] at hw
    split_ifs at hw
    cases hw
    exact { h with clearing := fun _ hn => by cases hn }
  | read ok =>
    simp only [step] at hw
    split_ifs at hw <;> cases hw <;> exact { h with clearing := fun _ hn => by cases hn }
  | lower =>
    simp only [step] at hw
    split_ifs at hw
    cases hw
    exact { h with
      clearing := fun _ hn => by cases hn
      tokens := fun _ _ => hg }
  | raise =>
    simp only [step] at hw
    split_ifs at hw
    cases hw
    exact { h.raiseFlag with
      clearing := fun n hn => by cases hn; exact le_rfl }
  | clear =>
    simp only [step] at hw
    split at hw
    · rename_i since hsince
      cases hw
      exact { h.clearLinks (h.clearing since hsince) with clearing := fun _ hn => by cases hn }
    · cases hw
  | disconnect p =>
    simp only [step] at hw
    split at hw
    · cases hw
      refine { h.raiseFlag with disconnects := fun q n hn => ?_ }
      simp only [Function.update_apply] at hn
      split_ifs at hn
      · cases hn; exact le_rfl
      · exact (h.disconnects q n hn).trans h.flagged
    · cases hw
  | clearAll p =>
    simp only [step] at hw
    split at hw
    · rename_i since hsince
      cases hw
      refine { h.clearLinks (h.disconnects p since hsince) with disconnects := fun q n hn => ?_ }
      simp only [Function.update_apply] at hn
      split_ifs at hn
      exact h.disconnects q n hn
    · cases hw
  | wake =>
    simp only [step] at hw
    split_ifs at hw
    cases hw
    exact { h with links := fun _ _ _ hl => by cases hl }
  | drop device =>
    cases hw
    exact h.drop
  | enter p device =>
    simp only [step] at hw
    split at hw
    · cases hw
      split_ifs
      · exact h
      · exact h.setCall fun _ _ _ hc => by cases hc
    · cases hw
  | lookup p =>
    simp only [step] at hw
    split at hw
    · rename_i device hcall
      split at hw
      · rename_i link hlink
        cases hw
        have hs : Swept w := hg device hcall (by rw [hlink]; simp)
        exact (h.give (h.links hs device link hlink)).setCall fun _ _ _ hc => by cases hc
      · cases hw
        exact h.setCall fun _ _ _ hc => by cases hc
    · cases hw
  | acquire p =>
    simp only [step] at hw
    split at hw
    · split at hw
      · cases hw
        exact { h.setCall (p := p) (c := .holding _) (fun _ _ _ hc => by cases hc) with }
      · cases hw
    · cases hw
  | recheck p =>
    simp only [step] at hw
    split at hw
    · rename_i device hcall
      split at hw
      · rename_i link hlink
        cases hw
        have hs : Swept w := hg device hcall (by rw [hlink]; simp)
        exact (h.give (h.links hs device link hlink)).release
      · cases hw
        exact h.setCall fun _ _ _ hc => by cases hc
    · cases hw
  | token p =>
    simp only [step] at hw
    split at hw
    · split_ifs at hw
      cases hw
      exact h.setCall fun _ _ _ hc => by cases hc; rfl
    · cases hw
  | dialed p =>
    simp only [step] at hw
    split at hw
    · rename_i device attempt token hcall
      cases hw
      split_ifs with hr
      · exact h.release
      · have hr : w.revoked = false := by simpa using hr
        have hlink : token.session = w.signOuts :=
          h.noneStale (hg hr) hr p device attempt token hcall
        exact ((h.insert hlink).give hlink).release
    · cases hw
  | dialFailed p =>
    simp only [step] at hw
    split at hw
    · cases hw; exact h.retry _
    · cases hw; exact h.retry _
    · cases hw
  | refuse p =>
    simp only [step] at hw
    split at hw
    · cases hw; exact h.setCall fun _ _ _ hc => by cases hc
    · cases hw; exact h.release
    · cases hw

/-- **Signing out revokes the links**, in every orderly run. -/
theorem links_revoked {as : List Action} (hg : Guarded step Orderly World.start as) {w : World}
    (he : exec step World.start as = some w) : Revoked w :=
  (exec_invariant (fun _ _ _ h hg hs => invariant_step h hg hs) invariant_start hg he).returned

/-- The user signs out, the watcher sweeps, another user signs in, and a call dials and returns. -/
theorem links_revoked_anew :
    ∃ w, exec step World.start [.signOut, .watch, .read true, .raise, .clear, .signIn, .watch,
        .read true, .lower, .enter 0 "d", .lookup 0, .acquire 0, .recheck 0, .token 0,
        .dialed 0] = some w ∧
      w.returned = [{ device := "d", link := { session := 1 }, signOuts := 1 }] ∧ Revoked w := by
  suffices hg : Guarded step Orderly World.start [.signOut, .watch, .read true, .raise, .clear,
      .signIn, .watch, .read true, .lower, .enter 0 "d", .lookup 0, .acquire 0, .recheck 0,
      .token 0, .dialed 0] from ⟨_, rfl, rfl, links_revoked hg rfl⟩
  iterate 8 refine guarded_cons trivial fun _ h => ?_; cases h
  refine guarded_cons (fun _ _ _ _ h => by cases h) fun _ h => ?_; cases h
  refine guarded_cons trivial fun _ h => ?_; cases h
  refine guarded_cons (fun _ _ _ => rfl) fun _ h => ?_; cases h
  refine guarded_cons trivial fun _ h => ?_; cases h
  refine guarded_cons (fun _ _ _ => rfl) fun _ h => ?_; cases h
  refine guarded_cons trivial fun _ h => ?_; cases h
  exact guarded_cons (fun _ => rfl) fun w _ => guarded_nil w

/-! ## A dial that outlives a sign-out -/

/-- A dial gets its token; the user signs out, and the watcher sweeps; another user signs in, and
the watcher takes the flag down; the dial ends. -/
def outlived : List Action :=
  [.enter 0 "d", .lookup 0, .acquire 0, .recheck 0, .token 0, .signOut, .watch, .read true, .raise,
    .clear, .signIn, .watch, .read true, .lower, .dialed 0]

/-- **The call returns the link of the first user.** -/
theorem dial_outlives_sign_out : ∃ w, exec step World.start outlived = some w ∧ ¬Revoked w ∧
    w.links "d" = some { session := 0 } ∧ w.signOuts = 1 := by
  refine ⟨_, rfl, fun h => ?_, rfl, rfl⟩
  have hsame := h { device := "d", link := { session := 0 }, signOuts := 1 } (by decide)
  exact absurd hsame (by decide)

end Zeron.Peer
