import LifiAuth.Support.Mailbox
import LifiAuth.Wifi.ForceKey

/-!
# The mailboxes of the remote requests

`/force_key` and `/set_baud` leave their requests behind two mutexes, in variables that keep
what earlier requests left there.  A pass of the main loop without a key press looks into
the first mailbox and, if it is empty, into the second one; other requests may come between
the two looks.  What it takes out is run by the same `switch` as a key press.
-/

namespace LifiAuth

open Support

variable (api : SstApi)

/-! ## Requests -/

/-- What a `/force_key` request names: an id, and with it the key itself. -/
structure ForceRequest where
  target : Option (Bytes 8)
  material : Option (Bytes 16 × Bytes 32)
  deriving DecidableEq

/-- What `handle_force_key_request` finds in a body. -/
def forceRequest (body : List UInt8) : ForceRequest :=
  let body := cstr body
  let target := parseHexField body (ascii "key_id") sstKeyIdSize
  { target := target
    material :=
      match target, parseHexField body (ascii "cipher_key") sstKeySize,
          parseHexField body (ascii "mac_key") sstMacKeySize with
      | some _, some cipherKey, some macKey => some (cipherKey, macKey)
      | _, _, _ => none }

/-- The request that is waiting, without the fields that its flags do not cover. -/
def ForceKeyMailbox.held (g : ForceKeyMailbox) : Option ForceRequest :=
  if g.requested then
    some
      { target := if g.hasTarget then some g.targetId else none
        material := if g.hasMaterial then some (g.cipherKey, g.macKey) else none }
  else none

/-- The request that the local variables of the loop stand for. -/
def RemoteForce.request (r : RemoteForce) : ForceRequest where
  target := if r.hasTarget then some r.targetId else none
  material := if r.hasMaterial then some (r.cipherKey, r.macKey) else none

/-- Local variables that hold the request and zeros. -/
def ForceRequest.locals (request : ForceRequest) : RemoteForce where
  hasTarget := request.target.isSome
  targetId := request.target.getD (Bytes.zero 8)
  hasMaterial := request.material.isSome
  cipherKey := (request.material.map Prod.fst).getD (Bytes.zero 16)
  macKey := (request.material.map Prod.snd).getD (Bytes.zero 32)

/-- The globals behind `g_baud_mutex`. -/
structure BaudMailbox where
  requested : Bool
  target : ℤ

def BaudMailbox.held (g : BaudMailbox) : Option ℤ :=
  if g.requested then some g.target else none

/-- `baud_is_sane`. -/
def baudIsSane (baud : ℤ) : Bool :=
  1000 ≤ baud && baud ≤ 4000000

/-- The rate that `handle_set_baud_request` accepts from a body. -/
def parseBaud (body : List UInt8) : Option ℤ :=
  (strstr (ascii "\"baud\"") (cstr body)).bind fun p =>
    (strchr 58 p).bind fun p =>
      let baud := atoi p.tail
      if baudIsSane baud then some baud else none

/-! ## The main loop -/

/-- The local variables of a pass before it looks anywhere: the flags are down, the rest is
what the stack holds. -/
def RemoteForce.fresh (stack : RemoteForce) : RemoteForce :=
  { stack with hasTarget := false, hasMaterial := false }

/-- The first critical section copies what the flags cover. -/
def takeForce (g : ForceKeyMailbox) (locals : RemoteForce) : RemoteForce where
  hasTarget := g.hasTarget
  targetId := if g.hasTarget then g.targetId else locals.targetId
  hasMaterial := g.hasMaterial
  cipherKey := if g.hasMaterial then g.cipherKey else locals.cipherKey
  macKey := if g.hasMaterial then g.macKey else locals.macKey

/-- Where the loop is: ahead of `getch` and the first critical section, ahead of the second
one, or behind key `q`. -/
inductive LoopPhase where
  | keys
  | bauds
  | exited

structure Pi4Loop where
  dash : Dash
  force : ForceKeyMailbox
  baud : BaudMailbox
  currentBaud : ℤ
  phase : LoopPhase

/-- What the `switch` does: case `f` with the local variables, case `r` with
`g_current_baud`, or another case. -/
inductive LoopAction where
  | force (locals : RemoteForce)
  | reopen (baud : ℤ)
  | key (code : ℤ)

inductive LoopOut where
  | forceAccepted (request : ForceRequest)
  | baudAccepted (baud : ℤ)
  /-- A pass begins, and this is what `getch` returns in it. -/
  | pass (key : ℤ)
  /-- The `switch` is run, for a key press or for a remote request. -/
  | ran (remote : Bool) (action : LoopAction)
  | dash (o : DashOut)

def loopAction (code : ℤ) (locals : RemoteForce) (baud : ℤ) : LoopAction :=
  if code = 102 ∨ code = 70 then .force locals
  else if code = 114 ∨ code = 82 then .reopen baud
  else .key code

/-- The cases that change the state. -/
def LoopAction.press : LoopAction → Option KeyPress
  | force locals => some (.f locals)
  | reopen _ => some .r
  | key code =>
      if code = 110 ∨ code = 78 then some .n
      else if code = 49 then some .one
      else if code = 50 then some .two
      else if code = 99 ∨ code = 67 then some .c
      else none

/-- The `switch`, which ends the pass; key `q` ends the program. -/
def runKey (remote : Bool) (code : ℤ) (locals : RemoteForce) (env : DashEnv) (s : Pi4Loop) :
    Pi4Loop × List LoopOut :=
  let action := loopAction code locals s.currentBaud
  let s := { s with phase := if code = 113 ∨ code = 81 then .exited else .keys }
  match action.press with
  | none => (s, [.ran remote action])
  | some press =>
      ({ s with dash := (handleKey api env press s.dash).1 },
        .ran remote action :: (handleKey api env press s.dash).2.map .dash)

/-- `getch` and the first critical section. -/
def lookForKey (key : ℤ) (stack : RemoteForce) (env : DashEnv) (s : Pi4Loop) :
    Pi4Loop × List LoopOut :=
  if key ≠ -1 then
    ((runKey api false key stack.fresh env s).1,
      .pass key :: (runKey api false key stack.fresh env s).2)
  else if s.force.requested then
    let locals := takeForce s.force stack.fresh
    let s := { s with force := { s.force with requested := false } }
    ((runKey api true 102 locals env s).1,
      .pass key :: (runKey api true 102 locals env s).2)
  else ({ s with phase := .bauds }, [.pass key])

/-- The second critical section. -/
def lookForBaud (stack : RemoteForce) (env : DashEnv) (s : Pi4Loop) :
    Pi4Loop × List LoopOut :=
  if s.baud.requested then
    if baudIsSane s.baud.target then
      runKey api true 114 stack.fresh env
        { s with
          baud := { s.baud with requested := false }
          currentBaud := s.baud.target }
    else
      ({ s with
          baud := { s.baud with requested := false }
          phase := .keys }, [])
  else ({ s with phase := .keys }, [])

/-- A critical section of the challenge server, or the next one of the main loop, which may
find a key pressed. -/
inductive LoopInput where
  | forceKey (body : List UInt8)
  | setBaud (body : List UInt8)
  | loop (key : ℤ) (stack : RemoteForce) (env : DashEnv)

def acceptForce (body : List UInt8) (s : Pi4Loop) : Pi4Loop × List LoopOut :=
  ({ s with force := handleForceKeyRequest body s.force },
    [.forceAccepted (forceRequest body)])

/-- `handle_set_baud_request`. -/
def acceptBaud (body : List UInt8) (s : Pi4Loop) : Pi4Loop × List LoopOut :=
  match parseBaud body with
  | none => (s, [])
  | some baud => ({ s with baud := ⟨true, baud⟩ }, [.baudAccepted baud])

def loopStep (s : Pi4Loop) (e : LoopInput) : Pi4Loop × List LoopOut :=
  match s.phase, e with
  | .exited, _ => (s, [])
  | _, .forceKey body => acceptForce body s
  | _, .setBaud body => acceptBaud body s
  | .keys, .loop key stack env => lookForKey api key stack env s
  | .bauds, .loop _ stack env => lookForBaud api stack env s

def pi4Loop : Machine Pi4Loop LoopInput LoopOut where
  step := loopStep api

/-- The globals as the program finds them. -/
def Pi4Loop.start (d : Dash) : Pi4Loop where
  dash := d
  force := ⟨false, Bytes.zero 8, false, Bytes.zero 16, Bytes.zero 32, false⟩
  baud := ⟨false, 0⟩
  currentBaud := 1000000
  phase := .keys

/-! ## What the outputs mean to the mailboxes -/

def forceRole : LoopOut → Mail ForceRequest
  | .forceAccepted request => .post request
  | .ran true (.force _) => .take
  | _ => .other

/-- The local variables stand for the request, and case `f` does with them what it would do
with the request alone. -/
structure RunsRequest (locals : RemoteForce) (request : ForceRequest) : Prop where
  fields : locals.request = request
  effect : ∀ env d, handleForce env locals d = handleForce env request.locals d

def forceUses : LoopOut → ForceRequest → Prop
  | .ran true (.force locals), request => RunsRequest locals request
  | _, _ => False

def baudRole : LoopOut → Mail ℤ
  | .baudAccepted baud => .post baud
  | .ran true (.reopen _) => .take
  | _ => .other

def baudUses : LoopOut → ℤ → Prop
  | .ran true (.reopen baud), baud' => baud = baud'
  | _, _ => False

/-- What a pass may run that found this key: a remote request only without a key, and with
one its own case, which no request has a part in. -/
structure PassRuns (key : ℤ) (remote : Bool) (action : LoopAction) : Prop where
  remote_iff : remote = true ↔ key = -1
  own : key ≠ -1 → ∃ locals baud, locals.request = ⟨none, none⟩ ∧
    action = loopAction key locals baud

/-- A pass is a permission to run the `switch` once. -/
def passRole : LoopOut → Mail ℤ
  | .pass key => .post key
  | .ran _ _ => .take
  | _ => .other

def passUses : LoopOut → ℤ → Prop
  | .ran remote action, key => PassRuns key remote action
  | _, _ => False

/-! ## The fields of a request -/

/-- Case `f` uses a field of its local variables only under its flag. -/
theorem handleForce_congr {r r' : RemoteForce} (h : r.request = r'.request)
    (hid : r.hasMaterial = true → r.hasTarget = true) (env : DashEnv) (d : Dash) :
    handleForce env r d = handleForce env r' d := by
  obtain ⟨htarget, hmaterial⟩ := ForceRequest.mk.inj h
  rw [handleForce, handleForce]
  by_cases hm : r.hasMaterial
  · have ht := hid hm
    have ht' : r'.hasTarget = true := by
      by_contra hnot
      simp [ht, hnot] at htarget
    have hm' : r'.hasMaterial = true := by
      by_contra hnot
      simp [hm, hnot] at hmaterial
    simp only [ht, ht', if_true, Option.some.injEq] at htarget
    simp only [hm, hm', if_true, Option.some.injEq, Prod.mk.injEq] at hmaterial
    rw [if_pos hm, if_pos hm', RemoteForce.pushed, RemoteForce.pushed, htarget,
      hmaterial.1, hmaterial.2]
  · have hm' : ¬ r'.hasMaterial = true := by
      intro hyes
      simp [hm, hyes] at hmaterial
    rw [if_neg hm, if_neg hm']
    by_cases ht : r.hasTarget
    · have ht' : r'.hasTarget = true := by
        by_contra hnot
        simp [ht, hnot] at htarget
      simp only [ht, ht', if_true, Option.some.injEq] at htarget
      rw [if_pos ht, if_pos ht', htarget]
    · have ht' : ¬ r'.hasTarget = true := by
        intro hyes
        simp [ht, hyes] at htarget
      rw [if_neg ht, if_neg ht']

/-- The local variables stand for the request that was waiting. -/
theorem request_takeForce {g : ForceKeyMailbox} (h : g.requested = true)
    (locals : RemoteForce) : g.held = some (takeForce g locals).request := by
  rw [ForceKeyMailbox.held, if_pos h, RemoteForce.request, takeForce]
  congr 2
  · split
    · rfl
    · rfl
  · split
    · rfl
    · rfl

/-- So do those of the key press that `drainForceKey` gives. -/
theorem request_drainForceKey {g : ForceKeyMailbox} (h : g.requested = true) :
    ∃ r, drainForceKey g = (some (.f r), { g with requested := false }) ∧
      g.held = some r.request := by
  refine ⟨⟨g.hasTarget, g.targetId, g.hasMaterial, g.cipherKey, g.macKey⟩, ?_, ?_⟩
  · rw [drainForceKey, if_pos h]
  · rw [ForceKeyMailbox.held, if_pos h]
    rfl

/-- A new request replaces the one that was waiting, with everything it names. -/
theorem held_handleForceKeyRequest (body : List UInt8) (g : ForceKeyMailbox) :
    (handleForceKeyRequest body g).held = some (forceRequest body) := by
  rw [ForceKeyMailbox.held, handleForceKeyRequest, forceRequest, if_pos rfl]
  rcases parseHexField (cstr body) (ascii "key_id") sstKeyIdSize with _ | id
  · rfl
  · rcases parseHexField (cstr body) (ascii "cipher_key") sstKeySize with _ | key
    · rfl
    · rcases parseHexField (cstr body) (ascii "mac_key") sstMacKeySize with _ | macKey
      · rfl
      · rfl

theorem request_locals (request : ForceRequest) : request.locals.request = request := by
  rcases request with ⟨_ | id, _ | ⟨key, macKey⟩⟩
  all_goals rfl

/-- The key itself only comes with its id. -/
def ForceKeyMailbox.Ordered (g : ForceKeyMailbox) : Prop :=
  g.hasMaterial = true → g.hasTarget = true

theorem ordered_handleForceKeyRequest (body : List UInt8) (g : ForceKeyMailbox) :
    (handleForceKeyRequest body g).Ordered := by
  rw [ForceKeyMailbox.Ordered, handleForceKeyRequest]
  rcases parseHexField (cstr body) (ascii "key_id") sstKeyIdSize with _ | id
  · exact fun hnone => hnone
  · exact fun _ => rfl

theorem runsRequest_takeForce {g : ForceKeyMailbox} (h : g.Ordered) (locals : RemoteForce) :
    RunsRequest (takeForce g locals) (takeForce g locals).request := by
  have hid : (takeForce g locals).hasMaterial = true → (takeForce g locals).hasTarget = true := h
  exact ⟨rfl, fun env d => handleForce_congr (request_locals _).symm hid env d⟩

theorem request_fresh (stack : RemoteForce) : stack.fresh.request = ⟨none, none⟩ := rfl

theorem baudIsSane_of_parseBaud {body : List UInt8} {baud : ℤ} (h : parseBaud body = some baud) :
    baudIsSane baud = true := by
  obtain ⟨p, -, h⟩ := Option.bind_eq_some_iff.mp h
  obtain ⟨q, -, h⟩ := Option.bind_eq_some_iff.mp h
  simp only at h
  split at h
  · next hsane =>
      obtain rfl := Option.some.inj h
      exact hsane
  · cases h

/-! ## One step -/

/-- The `switch` shows itself once, changes the receiver and leaves the mailboxes alone. -/
theorem runKey_eq (api : SstApi) (remote : Bool) (code : ℤ) (locals : RemoteForce)
    (env : DashEnv) (s : Pi4Loop) : ∃ (d : Dash) (out : List DashOut),
      runKey api remote code locals env s =
        ({ s with
            dash := d
            phase := if code = 113 ∨ code = 81 then .exited else .keys },
          .ran remote (loopAction code locals s.currentBaud) :: out.map .dash) := by
  rw [runKey]
  split
  · exact ⟨s.dash, [], rfl⟩
  · exact ⟨_, _, rfl⟩

/-- What a step can do to the mailboxes. -/
inductive LoopMoves (s : Pi4Loop) : Pi4Loop → List LoopOut → Prop where
  /-- The program has ended, a rate is refused, or the second mailbox is empty. -/
  | still {s' : Pi4Loop} (hforce : s'.force = s.force) (hbaud : s'.baud = s.baud)
      (hphase : s'.phase ≠ .bauds ∨ s' = s) : LoopMoves s s' []
  | acceptForce (body : List UInt8) :
      LoopMoves s { s with force := handleForceKeyRequest body s.force }
        [.forceAccepted (forceRequest body)]
  | acceptBaud {baud : ℤ} (hsane : baudIsSane baud = true) :
      LoopMoves s { s with baud := ⟨true, baud⟩ } [.baudAccepted baud]
  | lookFurther (hphase : s.phase = .keys) :
      LoopMoves s { s with phase := .bauds } [.pass (-1)]
  | ranKey {key : ℤ} (hkey : key ≠ -1) (stack : RemoteForce) {s' : Pi4Loop}
      (hphase : s.phase = .keys) (hforce : s'.force = s.force) (hbaud : s'.baud = s.baud)
      (hnext : s'.phase ≠ .bauds) (out : List DashOut) :
      LoopMoves s s' (.pass key :: .ran false (loopAction key stack.fresh s.currentBaud) ::
        out.map .dash)
  | ranForce (hrequested : s.force.requested = true) (stack : RemoteForce) {s' : Pi4Loop}
      (hphase : s.phase = .keys) (hforce : s'.force = { s.force with requested := false })
      (hbaud : s'.baud = s.baud) (hnext : s'.phase ≠ .bauds) (out : List DashOut) :
      LoopMoves s s' (.pass (-1) :: .ran true (.force (takeForce s.force stack.fresh)) ::
        out.map .dash)
  | ranBaud (hrequested : s.baud.requested = true) {s' : Pi4Loop} (hphase : s.phase = .bauds)
      (hforce : s'.force = s.force) (hbaud : s'.baud = { s.baud with requested := false })
      (hnext : s'.phase ≠ .bauds) (out : List DashOut) :
      LoopMoves s s' (.ran true (.reopen s.baud.target) :: out.map .dash)
  | droppedBaud (hrequested : s.baud.requested = true)
      (hsane : ¬ baudIsSane s.baud.target = true) {s' : Pi4Loop} (hforce : s'.force = s.force)
      (hbaud : s'.baud = { s.baud with requested := false }) (hnext : s'.phase ≠ .bauds) :
      LoopMoves s s' []

theorem phase_ne_bauds (code : ℤ) :
    (if code = 113 ∨ code = 81 then LoopPhase.exited else LoopPhase.keys) ≠ .bauds := by
  split
  · exact LoopPhase.noConfusion
  · exact LoopPhase.noConfusion

section

variable {api} {s : Pi4Loop}

theorem loopMoves_lookForKey (key : ℤ) (stack : RemoteForce) (env : DashEnv)
    (hphase : s.phase = .keys) :
    LoopMoves s (lookForKey api key stack env s).1 (lookForKey api key stack env s).2 := by
  rw [lookForKey]
  split
  · next hkey =>
      obtain ⟨d, out, hrun⟩ := runKey_eq api false key stack.fresh env s
      rw [hrun]
      refine .ranKey hkey stack hphase ?_ ?_ (phase_ne_bauds key) out
      · rfl
      · rfl
  · next hkey =>
      obtain rfl := not_not.mp hkey
      split
      · next hrequested =>
          obtain ⟨d, out, hrun⟩ := runKey_eq api true 102
            (takeForce s.force stack.fresh) env
            { s with force := { s.force with requested := false } }
          simp only [hrun]
          refine .ranForce hrequested stack hphase ?_ ?_ (phase_ne_bauds 102) out
          · rfl
          · rfl
      · exact .lookFurther hphase

theorem loopMoves_lookForBaud (stack : RemoteForce) (env : DashEnv)
    (hphase : s.phase = .bauds) :
    LoopMoves s (lookForBaud api stack env s).1 (lookForBaud api stack env s).2 := by
  rw [lookForBaud]
  split
  · next hrequested =>
      split
      · obtain ⟨d, out, hrun⟩ := runKey_eq api true 114 stack.fresh env
          { s with
            baud := { s.baud with requested := false }
            currentBaud := s.baud.target }
        rw [hrun]
        refine .ranBaud hrequested hphase ?_ ?_ (phase_ne_bauds 114) out
        · rfl
        · rfl
      · next hsane => exact .droppedBaud hrequested hsane rfl rfl LoopPhase.noConfusion
  · exact .still rfl rfl (Or.inl LoopPhase.noConfusion)

theorem loopMoves_acceptBaud (body : List UInt8) :
    LoopMoves s (acceptBaud body s).1 (acceptBaud body s).2 := by
  rw [acceptBaud]
  rcases hbaud : parseBaud body with _ | baud
  · exact .still rfl rfl (Or.inr rfl)
  · exact .acceptBaud (baudIsSane_of_parseBaud hbaud)

theorem loopMoves_step (i : LoopInput) :
    LoopMoves s ((pi4Loop api).step s i).1 ((pi4Loop api).step s i).2 := by
  change LoopMoves s (loopStep api s i).1 (loopStep api s i).2
  rcases hphase : s.phase with _ | _ | _
  · rcases i with body | body | ⟨key, stack, env⟩
    · simp only [loopStep, hphase]
      exact .acceptForce body
    · simp only [loopStep, hphase]
      exact loopMoves_acceptBaud body
    · simp only [loopStep, hphase]
      exact loopMoves_lookForKey key stack env hphase
  · rcases i with body | body | ⟨key, stack, env⟩
    · simp only [loopStep, hphase]
      exact .acceptForce body
    · simp only [loopStep, hphase]
      exact loopMoves_acceptBaud body
    · simp only [loopStep, hphase]
      exact loopMoves_lookForBaud stack env hphase
  · simp only [loopStep, hphase]
    exact .still rfl rfl (Or.inr rfl)

end

/-! ## The mailboxes deliver -/

section

variable {s s' : Pi4Loop} {t : List LoopOut}

/-- The outputs of the receiver mean nothing to a mailbox. -/
theorem delivered_dash {α : Type} {role : LoopOut → Mail α} {uses : LoopOut → α → Prop}
    {drops : α → Prop} (h : ∀ o, role (.dash o) = .other) (w : Option α)
    (out : List DashOut) :
    Delivered role uses drops w (out.map .dash) ∧ waiting role w (out.map .dash) = w := by
  refine ⟨?_, waiting_quiet (List.forall_mem_map.mpr fun o _ => h o)⟩
  induction out with
  | nil => exact trivial
  | cons o out ih =>
      rw [List.map_cons, Delivered, h]
      exact ih

/-- The waiting `/force_key` request is what the mailbox holds. -/
theorem delivered_force (hordered : s.force.Ordered) (h : LoopMoves s s' t) :
    Delivered forceRole forceUses (fun _ => True) s.force.held t ∧
      s'.force.held = waiting forceRole s.force.held t ∧ s'.force.Ordered := by
  have hquiet (w : Option ForceRequest) (out : List DashOut) :
      Delivered forceRole forceUses (fun _ => True) w (out.map .dash) ∧
        waiting forceRole w (out.map .dash) = w := delivered_dash (fun _ => rfl) w out
  rcases h with ⟨hforce, -, -⟩ | body | hsane | hphase |
    ⟨hkey, stack, -, hforce, -, -, out⟩ | ⟨hrequested, stack, -, hforce, -, -, out⟩ |
    ⟨-, -, hforce, -, -, out⟩ | ⟨-, -, hforce, -, -⟩
  · rw [hforce]
    exact ⟨trivial, rfl, hordered⟩
  · exact ⟨⟨fun _ _ => trivial, trivial⟩, held_handleForceKeyRequest body s.force,
      ordered_handleForceKeyRequest body s.force⟩
  · exact ⟨trivial, rfl, hordered⟩
  · exact ⟨trivial, rfl, hordered⟩
  · obtain ⟨hdelivered, hwaiting⟩ := hquiet s.force.held out
    rw [hforce]
    exact ⟨hdelivered, hwaiting.symm, hordered⟩
  · obtain ⟨hdelivered, hwaiting⟩ := hquiet none out
    rw [hforce]
    have hruns := runsRequest_takeForce hordered stack.fresh
    exact ⟨⟨⟨_, request_takeForce hrequested stack.fresh, hruns⟩, hdelivered⟩,
      hwaiting.symm, hordered⟩
  · obtain ⟨hdelivered, hwaiting⟩ := hquiet s.force.held out
    rw [hforce]
    exact ⟨hdelivered, hwaiting.symm, hordered⟩
  · rw [hforce]
    exact ⟨trivial, rfl, hordered⟩

/-- The waiting rate is what the second mailbox holds, and was checked. -/
theorem delivered_baud {w : Option ℤ} (hheld : s.baud.held = w)
    (hsane : ∀ baud ∈ w, baudIsSane baud = true) (h : LoopMoves s s' t) :
    Delivered baudRole baudUses (fun _ => True) w t ∧
      s'.baud.held = waiting baudRole w t ∧
      ∀ baud ∈ waiting baudRole w t, baudIsSane baud = true := by
  have hquiet (w : Option ℤ) (out : List DashOut) :
      Delivered baudRole baudUses (fun _ => True) w (out.map .dash) ∧
        waiting baudRole w (out.map .dash) = w := delivered_dash (fun _ => rfl) w out
  have hrequest (hrequested : s.baud.requested = true) : w = some s.baud.target := by
    rw [← hheld, BaudMailbox.held, if_pos hrequested]
  rcases h with ⟨-, hbaud, -⟩ | body | hnew | hphase | ⟨hkey, stack, -, -, hbaud, -, out⟩ |
    ⟨-, stack, -, -, hbaud, -, out⟩ | ⟨hrequested, -, -, hbaud, -, out⟩ |
    ⟨hrequested, hdropped, -, -, -⟩
  · rw [hbaud]
    exact ⟨trivial, hheld, hsane⟩
  · exact ⟨trivial, hheld, hsane⟩
  · refine ⟨⟨fun _ _ => trivial, trivial⟩, rfl, ?_⟩
    intro baud hmem
    obtain rfl := Option.some.inj hmem
    exact hnew
  · exact ⟨trivial, hheld, hsane⟩
  · obtain ⟨hdelivered, hwaiting⟩ := hquiet w out
    refine ⟨hdelivered, ?_⟩
    simp only [waiting, baudRole, hwaiting, hbaud]
    exact ⟨hheld, hsane⟩
  · obtain ⟨hdelivered, hwaiting⟩ := hquiet w out
    refine ⟨hdelivered, ?_⟩
    simp only [waiting, baudRole, hwaiting, hbaud]
    exact ⟨hheld, hsane⟩
  · obtain ⟨hdelivered, hwaiting⟩ := hquiet none out
    refine ⟨⟨⟨_, hrequest hrequested, rfl⟩, hdelivered⟩, ?_⟩
    simp only [waiting, baudRole, hwaiting, hbaud]
    exact ⟨rfl, by simp⟩
  · rw [hrequest hrequested] at hsane
    exact absurd (hsane _ rfl) hdropped

/-- A pass that goes on to the second mailbox has found no key. -/
structure PassWaits (s : Pi4Loop) (w : Option ℤ) : Prop where
  bauds : s.phase = .bauds → w = some (-1)
  unused : ∀ key ∈ w, key = -1

/-- The `switch` is run at most once in a pass, and for a key that was pressed. -/
theorem delivered_pass {w : Option ℤ} (hw : PassWaits s w) (h : LoopMoves s s' t) :
    Delivered passRole passUses (· = -1) w t ∧ PassWaits s' (waiting passRole w t) := by
  have hquiet (out : List DashOut) :
      Delivered passRole passUses (· = -1) none (out.map .dash) ∧
        waiting passRole none (out.map .dash) = none := delivered_dash (fun _ => rfl) none out
  have hnone (hnext : s'.phase ≠ .bauds) : PassWaits s' none :=
    ⟨fun hbauds => absurd hbauds hnext, by simp⟩
  rcases h with ⟨-, -, hphase⟩ | body | hnew | hphase | ⟨hkey, stack, -, -, -, hnext, out⟩ |
    ⟨-, stack, -, -, -, hnext, out⟩ | ⟨-, hphase, -, -, hnext, out⟩ | ⟨-, -, -, -, hnext⟩
  · refine ⟨trivial, ?_⟩
    rcases hphase with hnext | rfl
    · exact ⟨fun hbauds => absurd hbauds hnext, hw.unused⟩
    · exact hw
  · exact ⟨trivial, hw.bauds, hw.unused⟩
  · exact ⟨trivial, hw.bauds, hw.unused⟩
  · refine ⟨⟨hw.unused, trivial⟩, ⟨fun _ => rfl, ?_⟩⟩
    intro key hmem
    exact (Option.some.inj hmem).symm
  · obtain ⟨hdelivered, hwaiting⟩ := hquiet out
    refine ⟨⟨hw.unused, ⟨_, rfl, ?_⟩, hdelivered⟩, ?_⟩
    · exact ⟨by simp [hkey], fun _ => ⟨stack.fresh, _, request_fresh stack, rfl⟩⟩
    · simp only [waiting, passRole, hwaiting]
      exact hnone hnext
  · obtain ⟨hdelivered, hwaiting⟩ := hquiet out
    refine ⟨⟨hw.unused, ⟨_, rfl, ?_⟩, hdelivered⟩, ?_⟩
    · exact ⟨by simp, fun hne => absurd rfl hne⟩
    · simp only [waiting, passRole, hwaiting]
      exact hnone hnext
  · obtain ⟨hdelivered, hwaiting⟩ := hquiet out
    refine ⟨⟨⟨_, hw.bauds hphase, ?_⟩, hdelivered⟩, ?_⟩
    · exact ⟨by simp, fun hne => absurd rfl hne⟩
    · simp only [waiting, passRole, hwaiting]
      exact hnone hnext
  · exact ⟨trivial, fun hbauds => absurd hbauds hnext, hw.unused⟩

end

/-! ## Runs -/

/-- What becomes of requests and passes in a run that emits `t` and ends in `s`. -/
structure RequestsKept (t : List LoopOut) (s : Pi4Loop) : Prop where
  /-- Case `f` runs with the fields of the request that was accepted last. -/
  forceUsed : ∀ before locals after, t = before ++ .ran true (.force locals) :: after →
    ∃ b request c, before = b ++ .forceAccepted request :: c ∧ Quiet forceRole c ∧
      RunsRequest locals request
  /-- A request is overtaken by another one, run, or still waiting. -/
  forceFate : ∀ before request after, t = before ++ .forceAccepted request :: after →
    (∃ c o d, after = c ++ o :: d ∧ Quiet forceRole c ∧
      ((∃ request', o = .forceAccepted request') ∨
        ∃ locals, o = .ran true (.force locals) ∧ RunsRequest locals request)) ∨
    Quiet forceRole after ∧ s.force.held = some request
  /-- Case `r` runs with the rate that was accepted last. -/
  baudUsed : ∀ before baud after, t = before ++ .ran true (.reopen baud) :: after →
    ∃ b c, before = b ++ .baudAccepted baud :: c ∧ Quiet baudRole c
  baudFate : ∀ before baud after, t = before ++ .baudAccepted baud :: after →
    (∃ c o d, after = c ++ o :: d ∧ Quiet baudRole c ∧
      ((∃ baud', o = .baudAccepted baud') ∨ o = .ran true (.reopen baud))) ∨
    Quiet baudRole after ∧ s.baud.held = some baud
  /-- The `switch` is run at most once in a pass, for a request only without a key. -/
  once : ∀ before remote action after, t = before ++ .ran remote action :: after →
    ∃ b key c, before = b ++ .pass key :: c ∧ Quiet passRole c ∧ PassRuns key remote action
  /-- A key press is run in its pass, and ahead of all requests. -/
  keyFirst : ∀ before key after, t = before ++ .pass key :: after → key ≠ -1 →
    ∃ c action d, after = c ++ .ran false action :: d ∧ Quiet passRole c ∧
      PassRuns key false action

theorem forceAccepted_of_role {o : LoopOut} {request : ForceRequest}
    (h : forceRole o = .post request) : o = .forceAccepted request := by
  rcases o with request' | baud | key | ⟨_ | _, locals | baud | code⟩ | o
  · rw [forceRole, Mail.post.injEq] at h
    rw [h]
  all_goals cases h

theorem ran_of_forceUses {o : LoopOut} {request : ForceRequest} (h : forceUses o request) :
    ∃ locals, o = .ran true (.force locals) ∧ RunsRequest locals request := by
  rcases o with request' | baud | key | ⟨_ | _, locals | baud | code⟩ | o
  case ran.true.force => exact ⟨locals, rfl, h⟩
  all_goals cases h

theorem baudAccepted_of_role {o : LoopOut} {baud : ℤ} (h : baudRole o = .post baud) :
    o = .baudAccepted baud := by
  rcases o with request | baud' | key | ⟨_ | _, locals | baud' | code⟩ | o
  case baudAccepted =>
    rw [baudRole, Mail.post.injEq] at h
    rw [h]
  all_goals cases h

theorem ran_of_baudUses {o : LoopOut} {baud : ℤ} (h : baudUses o baud) :
    o = .ran true (.reopen baud) := by
  rcases o with request | baud' | key | ⟨_ | _, locals | baud' | code⟩ | o
  case ran.true.reopen =>
    rw [baudUses] at h
    rw [h]
  all_goals cases h

theorem pass_of_role {o : LoopOut} {key : ℤ} (h : passRole o = .post key) : o = .pass key := by
  rcases o with request | baud | key' | ⟨remote, action⟩ | o
  case pass =>
    rw [passRole, Mail.post.injEq] at h
    rw [h]
  all_goals cases h

theorem ran_of_passUses {o : LoopOut} {key : ℤ} (h : passUses o key) :
    ∃ remote action, o = .ran remote action ∧ PassRuns key remote action := by
  rcases o with request | baud | key' | ⟨remote, action⟩ | o
  case ran => exact ⟨remote, action, rfl, h⟩
  all_goals cases h

section

variable (d : Dash)

/-- The first mailbox holds the request that is waiting. -/
theorem delivered_force_run (is : List LoopInput) :
    Delivered forceRole forceUses (fun _ => True) none ((pi4Loop api).trace (.start d) is) ∧
      ((pi4Loop api).run (.start d) is).force.held =
        waiting forceRole none ((pi4Loop api).trace (.start d) is) ∧
      ((pi4Loop api).run (.start d) is).force.Ordered := by
  refine delivered_run (H := fun (s : Pi4Loop) w => s.force.held = w ∧ s.force.Ordered)
    (s := .start d) (w := none) (fun s i w hw => ?_) ⟨rfl, fun hnone => hnone⟩ is
  obtain ⟨rfl, hordered⟩ := hw
  exact delivered_force hordered (loopMoves_step i)

/-- The second one holds the rate that is waiting. -/
theorem delivered_baud_run (is : List LoopInput) :
    Delivered baudRole baudUses (fun _ => True) none ((pi4Loop api).trace (.start d) is) ∧
      ((pi4Loop api).run (.start d) is).baud.held =
        waiting baudRole none ((pi4Loop api).trace (.start d) is) ∧
      ∀ baud ∈ waiting baudRole none ((pi4Loop api).trace (.start d) is),
        baudIsSane baud = true := by
  refine delivered_run
    (H := fun (s : Pi4Loop) w => s.baud.held = w ∧ ∀ baud ∈ w, baudIsSane baud = true)
    (s := .start d) (w := none) (fun s i w hw => ?_) ⟨rfl, by simp⟩ is
  exact delivered_baud hw.1 hw.2 (loopMoves_step i)

theorem delivered_pass_run (is : List LoopInput) :
    Delivered passRole passUses (· = -1) none ((pi4Loop api).trace (.start d) is) ∧
      PassWaits ((pi4Loop api).run (.start d) is)
        (waiting passRole none ((pi4Loop api).trace (.start d) is)) := by
  refine delivered_run (H := PassWaits) (s := .start d) (w := none) (fun s i w hw => ?_)
    ⟨LoopPhase.noConfusion, by simp⟩ is
  exact delivered_pass hw (loopMoves_step i)

end

/-- In every interleaving of requests with the passes of the main loop, no request mixes
with another one or is lost, and keys come first. -/
theorem requests_kept (api : SstApi) (d : Dash) (is : List LoopInput) :
    RequestsKept ((pi4Loop api).trace (.start d) is) ((pi4Loop api).run (.start d) is) := by
  obtain ⟨hforce, hforceHeld, -⟩ := delivered_force_run api d is
  obtain ⟨hbaud, hbaudHeld, -⟩ := delivered_baud_run api d is
  obtain ⟨hpass, hpassWaits⟩ := delivered_pass_run api d is
  constructor
  · intro before locals after ht
    rw [ht] at hforce
    exact hforce.taken forceAccepted_of_role rfl
  · intro before request after ht
    rw [ht] at hforce hforceHeld
    rcases hforce.fate forceAccepted_of_role rfl with
      ⟨c, o, d, hafter, hc, ho⟩ | ⟨hquiet, hwaiting⟩
    · refine Or.inl ⟨c, o, d, hafter, hc, ?_⟩
      rcases ho with ⟨hpost, -⟩ | huses
      · exact Or.inl hpost
      · exact Or.inr (ran_of_forceUses huses)
    · exact Or.inr ⟨hquiet, hforceHeld.trans hwaiting⟩
  · intro before baud after ht
    rw [ht] at hbaud
    obtain ⟨b, baud', c, hbefore, hc, huses⟩ := hbaud.taken baudAccepted_of_role rfl
    obtain rfl : baud = baud' := huses
    exact ⟨b, c, hbefore, hc⟩
  · intro before baud after ht
    rw [ht] at hbaud hbaudHeld
    rcases hbaud.fate baudAccepted_of_role rfl with
      ⟨c, o, d, hafter, hc, ho⟩ | ⟨hquiet, hwaiting⟩
    · refine Or.inl ⟨c, o, d, hafter, hc, ?_⟩
      rcases ho with ⟨hpost, -⟩ | huses
      · exact Or.inl hpost
      · exact Or.inr (ran_of_baudUses huses)
    · exact Or.inr ⟨hquiet, hbaudHeld.trans hwaiting⟩
  · intro before remote action after ht
    rw [ht] at hpass
    exact hpass.taken pass_of_role rfl
  · intro before key after ht hkey
    rw [ht] at hpass hpassWaits
    rcases hpass.fate pass_of_role rfl with ⟨c, o, d, hafter, hc, ho⟩ | ⟨-, hwaiting⟩
    · rcases ho with ⟨-, hdropped⟩ | huses
      · exact absurd hdropped hkey
      · obtain ⟨remote, action, rfl, hruns⟩ := ran_of_passUses huses
        have hlocal : remote = false := by
          rw [← Bool.not_eq_true, hruns.remote_iff]
          exact hkey
        subst hlocal
        exact ⟨c, action, d, hafter, hc, hruns⟩
    · exact absurd (hpassWaits.unused key hwaiting) hkey

end LifiAuth
