import SystemProgramming.Popen.Ends

/-! # Which child `my_pclose` waits for

The loop of `my_pclose` overwrites the pid it waits for with the result of the interrupted `waitpid`,
which is -1. The next `waitpid` then takes any child. As long as no other child has exited at that
moment, each call still reaps the child of its stream and no other.
-/

namespace SystemProgramming.Popen

open Lib

variable {ρ : Type*}

/-- Each `my_pclose` that has returned reaped the child of its stream and returned the status of
that child, and no other child is reaped. -/
structure Paired (s : State ρ) : Prop where
  results : ∀ e ∈ s.results, ∃ (i : ℕ) (c : Child ρ), e.owner = some i ∧ e.reaped = some i ∧
    s.children[i]? = some c ∧ c.reaped = true ∧ c.pc = .exited e.pstat
  reaped : ∀ (i : ℕ) (c : Child ρ), s.children[i]? = some c → c.reaped = true →
    ∃ e ∈ s.results, e.owner = some i ∧ e.reaped = some i
  /-- A child whose stream is open is not reaped. -/
  opened : ∀ fp file i (c : Child ρ), s.files fp = some file → file.child = some i →
    s.children[i]? = some c → c.reaped = false

/-- No `fork` fails, and when `waitpid` returns after an interruption the child of the stream is the
only one that has exited. -/
def Undisturbed (s : State ρ) : Event → Prop
  | .myPopenUnforked _ _ => False
  | .reaps _ => ∀ wait, s.wait = some wait → wait.pid = -1 →
      ∀ (i : ℕ) (c : Child ρ), s.children[i]? = some c → c.reaped = false → c.hasExited = true →
        wait.owner = some i
  | .myPopen _ _ _ => True
  | .fwrite _ _ _ => True
  | .myPclose _ => True
  | .interrupted => True
  | .noChild => True
  | .drop _ _ => True
  | .act _ => True
  | .read _ _ => True
  | .exit _ _ => True

instance (s : State ρ) (e : Event) : Decidable (Undisturbed s e) :=
  match e with
  | .myPopenUnforked _ _ => isFalse nofun
  | .reaps _ =>
    decidable_of_iff (∀ wait ∈ s.wait, wait.pid = -1 → ∀ i < s.children.length, ∀ c ∈ s.children[i]?,
      c.reaped = false → c.hasExited = true → wait.owner = some i)
      ⟨fun all wait waiting any i c here => all wait waiting any i (lt_length_of_getElem? here) c here,
        fun all wait waiting any i _ c here => all wait waiting any i c here⟩
  | .myPopen _ _ _ => isTrue trivial
  | .fwrite _ _ _ => isTrue trivial
  | .myPclose _ => isTrue trivial
  | .interrupted => isTrue trivial
  | .noChild => isTrue trivial
  | .drop _ _ => isTrue trivial
  | .act _ => isTrue trivial
  | .read _ _ => isTrue trivial
  | .exit _ _ => isTrue trivial

/-! ## The invariant -/

/-- The child is running or waits to be reaped, and no open stream is its own. -/
def Awaited (s : State ρ) (i : ℕ) (c : Child ρ) : Prop :=
  s.children[i]? = some c ∧ c.reaped = false ∧ ∀ fp file, s.files fp = some file → file.child ≠ some i

structure Reaping (s : State ρ) : Prop where
  positive : ∀ c ∈ s.children, 0 < c.pid
  unique : ∀ (i j : ℕ) (c d : Child ρ), s.children[i]? = some c → s.children[j]? = some d →
    c.reaped = false → d.reaped = false → c.pid = d.pid → i = j
  /-- The dictionary leads from a stream to its child, -/
  listed : ∀ fp file pid, s.files fp = some file → getPid fp s.dict = some pid →
    ∃ (i : ℕ) (c : Child ρ), file.child = some i ∧ s.children[i]? = some c ∧ pid = c.pid
  /-- and `my_pclose` waits for that child until it is interrupted. -/
  waits : ∀ wait, s.wait = some wait →
    ∃ i c, wait.owner = some i ∧ Awaited s i c ∧ (wait.pid = -1 ∨ wait.pid = c.pid)
  paired : Paired s

theorem reaping_start (fds : FdTable ρ) : Reaping (start fds) where
  positive _ member := nomatch member
  unique _ _ _ _ here := nomatch here
  listed _ _ _ open_ := nomatch open_
  waits _ waiting := nomatch waiting
  paired := ⟨fun _ member => (nomatch member), fun _ _ here => (nomatch here),
    fun _ _ _ _ open_ => (nomatch open_)⟩

theorem matches_iff {pid : ℤ} {c : Child ρ} :
    c.matches_ pid = true ↔ c.reaped = false ∧ (pid = -1 ∨ pid = c.pid) := by
  simp only [Child.matches_, Bool.and_eq_true, Bool.not_eq_true', Bool.or_eq_true, beq_iff_eq]

/-! ## One event -/

section

variable {s t : State ρ}

/-- A child takes a step of its own. -/
theorem Reaping.setChild (reaping : Reaping s) {i : ℕ} {c next : Child ρ}
    (here : s.children[i]? = some c) (pid : next.pid = c.pid) (kept : next.reaped = c.reaped)
    (ended : ∀ status, c.pc = .exited status → next.pc = .exited status) :
    Reaping (s.setChild i next) := by
  have old {j : ℕ} {d : Child ρ} (there : (s.setChild i next).children[j]? = some d) :
      ∃ e, s.children[j]? = some e ∧ d.pid = e.pid ∧ d.reaped = e.reaped := by
    obtain ⟨rfl, rfl⟩ | ⟨-, there⟩ := getElem?_set_cases there
    · exact ⟨c, here, pid, kept⟩
    · exact ⟨d, there, rfl, rfl⟩
  have new {j : ℕ} {d : Child ρ} (there : s.children[j]? = some d) :
      ∃ e, (s.setChild i next).children[j]? = some e ∧ e.pid = d.pid ∧ e.reaped = d.reaped ∧
        ∀ status, d.pc = .exited status → e.pc = .exited status := by
    rw [State.setChild, List.getElem?_set]
    split_ifs with hit inside
    · subst hit
      cases here.symm.trans there
      exact ⟨next, rfl, pid, kept, ended⟩
    · exact absurd (lt_length_of_getElem? here) inside
    · exact ⟨d, there, rfl, rfl, fun _ place => place⟩
  refine ⟨fun d member => ?_, fun j k d e there there' unreaped unreaped' same => ?_,
    fun fp file p open_ known => ?_, fun wait waiting => ?_, ⟨fun e member => ?_,
    fun j d there gone => ?_, fun fp file j d open_ owner there => ?_⟩⟩
  · obtain ⟨j, there⟩ := List.getElem?_of_mem member
    obtain ⟨e, before, same, -⟩ := old there
    rw [same]
    exact reaping.positive e (List.mem_of_getElem? before)
  · obtain ⟨d', before, samePid, sameReaped⟩ := old there
    obtain ⟨e', before', samePid', sameReaped'⟩ := old there'
    exact reaping.unique j k d' e' before before' (sameReaped ▸ unreaped) (sameReaped' ▸ unreaped')
      (by rw [← samePid, ← samePid', same])
  · obtain ⟨j, d, owner, before, same⟩ := reaping.listed fp file p open_ known
    obtain ⟨e, there, samePid, -⟩ := new before
    exact ⟨j, e, owner, there, by rw [same, samePid]⟩
  · obtain ⟨j, d, owner, ⟨before, unreaped, closed⟩, same⟩ := reaping.waits wait waiting
    obtain ⟨e, there, samePid, sameReaped, -⟩ := new before
    exact ⟨j, e, owner, ⟨there, by rw [sameReaped, unreaped], closed⟩, by rwa [samePid]⟩
  · obtain ⟨j, d, owner, reaped, before, gone, place⟩ := reaping.paired.results e member
    obtain ⟨d', there, -, sameReaped, stays⟩ := new before
    exact ⟨j, d', owner, reaped, there, by rw [sameReaped, gone], stays _ place⟩
  · obtain ⟨e, before, -, sameReaped⟩ := old there
    exact reaping.paired.reaped j e before (sameReaped ▸ gone)
  · obtain ⟨e, before, -, sameReaped⟩ := old there
    rw [sameReaped]
    exact reaping.paired.opened fp file j e open_ owner before

/-- Nothing of this is about what is in the pipes. -/
theorem Reaping.withPipes (reaping : Reaping s) (pipes : ℕ → Pipe) :
    Reaping { s with pipes := pipes } :=
  ⟨reaping.positive, reaping.unique, reaping.listed, reaping.waits, reaping.paired.results,
    reaping.paired.reaped, reaping.paired.opened⟩

theorem Reaping.myPopen (inv : Inv s) (reaping : Reaping s) {fp : ℕ} (free : s.files fp = none)
    (waiting : s.wait = none) {pid : ℕ} (positive : 0 < pid)
    (fresh : ∀ c ∈ s.children, c.pid = pid → c.reaped = true) (write : Bool) :
    Reaping { s.popen write fp (some s.children.length) pid with
      children := s.children ++ [s.forked write pid] } := by
  refine ⟨fun c member => ?_, fun i j c d here there unreaped unreaped' same => ?_,
    fun gp file p open_ known => ?_, fun wait waiting' => ?_, ⟨fun e member => ?_,
    fun i c here gone => ?_, fun gp file i c open_ owner here => ?_⟩⟩
  · obtain old | new := List.mem_append.mp member
    · exact reaping.positive c old
    · obtain rfl := List.mem_singleton.mp new
      exact positive
  · -- the new pid is not that of a child still to be reaped
    have fresh' {k : ℕ} {e : Child ρ} (before : s.children[k]? = some e) (unreaped : e.reaped = false) :
        e.pid ≠ pid := fun same => by
      have := fresh e (List.mem_of_getElem? before) same
      rw [unreaped] at this
      nomatch this
    rcases getElem?_append_cases here with ⟨rfl, rfl⟩ | ⟨-, here⟩ <;>
      rcases getElem?_append_cases there with ⟨rfl, rfl⟩ | ⟨-, there⟩
    · rfl
    · exact absurd same.symm (fresh' there unreaped')
    · exact absurd same (fresh' here unreaped)
    · exact reaping.unique i j c d here there unreaped unreaped' same
  · have unlisted : s.dict.lookup fp = none := inv.streams.unlisted free
    rw [getPid] at known
    obtain ⟨rfl, -, -, owner, -⟩ | ⟨other, open_⟩ := popen_files pid open_
    · refine ⟨s.children.length, _, owner, List.getElem?_concat_length, ?_⟩
      exact Option.some.inj (known.symm.trans ((lookup_insert unlisted gp).trans (if_pos rfl)))
    · have known := known.symm.trans ((lookup_insert unlisted gp).trans (if_neg other))
      obtain ⟨i, c, owner, here, same⟩ := reaping.listed gp file p open_ known.symm
      exact ⟨i, c, owner, getElem?_append_of_some here, same⟩
  · nomatch waiting.symm.trans waiting'
  · obtain ⟨i, c, owner, reaped, here, rest⟩ := reaping.paired.results e member
    exact ⟨i, c, owner, reaped, getElem?_append_of_some here, rest⟩
  · obtain ⟨-, rfl⟩ | ⟨-, here⟩ := getElem?_append_cases here
    · nomatch gone
    · exact reaping.paired.reaped i c here gone
  · obtain ⟨-, rfl⟩ | ⟨inside, here⟩ := getElem?_append_cases here
    · rfl
    · obtain ⟨-, -, -, owner', -⟩ | ⟨-, open_⟩ := popen_files pid open_
      · obtain rfl : s.children.length = i := Option.some.inj (owner'.symm.trans owner)
        exact absurd inside (Nat.lt_irrefl _)
      · exact reaping.paired.opened gp file i c open_ owner here

theorem Reaping.buffer (reaping : Reaping s) {fp : ℕ} {file : File} (here : s.files fp = some file)
    (buffer : Bytes) :
    Reaping { s with files := Function.update s.files fp (some { file with buffer := buffer }) } := by
  refine ⟨reaping.positive, reaping.unique, fun gp file' pid open_ known => ?_, fun wait waiting => ?_,
    reaping.paired.results, reaping.paired.reaped, fun gp file' i c open_ owner there => ?_⟩
  · obtain ⟨before, open_, -, -, -, same⟩ := of_rebuffered here open_
    rw [same]
    exact reaping.listed gp before pid open_ known
  · obtain ⟨i, c, owner, ⟨there, unreaped, closed⟩, same⟩ := reaping.waits wait waiting
    refine ⟨i, c, owner, ⟨there, unreaped, fun gp file' open_ => ?_⟩, same⟩
    obtain ⟨before, open_, -, -, -, same'⟩ := of_rebuffered here open_
    rw [same']
    exact closed gp before open_
  · obtain ⟨before, open_, -, -, -, same⟩ := of_rebuffered here open_
    exact reaping.paired.opened gp before i c open_ (same ▸ owner) there

theorem Reaping.myPclose (inv : Inv s) (reaping : Reaping s) {fp : ℕ} {file : File} {pid : ℤ}
    (here : s.files fp = some file) (known : getPid fp s.dict = some pid) (fds : FdTable (Handle ρ)) :
    Reaping { s with
      fds := fds
      files := Function.update s.files fp none
      dict := erase fp s.dict
      wait := some ⟨pid, file.child⟩ } := by
  refine ⟨reaping.positive, reaping.unique, fun gp file' p open_ known' => ?_, fun wait waiting => ?_,
    reaping.paired.results, reaping.paired.reaped, fun gp file' i c open_ => ?_⟩
  · obtain ⟨different, open_⟩ := update_none_eq_some.mp open_
    rw [getPid, lookup_erase, if_neg different] at known'
    exact reaping.listed gp file' p open_ known'
  · cases waiting
    obtain ⟨i, c, owner, there, same⟩ := reaping.listed fp file pid here known
    refine ⟨i, c, owner, ⟨there, reaping.paired.opened fp file i c here owner there,
      fun gp file' open_ owner' => ?_⟩, .inr same⟩
    -- two streams of one child would have one pipe
    obtain ⟨different, open_⟩ := update_none_eq_some.mp open_
    obtain ⟨d, there', pipe, -⟩ := inv.owned fp file i here owner
    obtain ⟨e, there'', pipe', -⟩ := inv.owned gp file' i open_ owner'
    cases there'.symm.trans there''
    exact different (inv.streams.apart gp fp file' file open_ here (pipe'.symm.trans pipe))
  · exact reaping.paired.opened gp file' i c (update_none_eq_some.mp open_).2

/-- The child that is reaped is the one of the stream. -/
theorem Reaping.owner_reaps (reaping : Reaping s) {i : ℕ} (calm : Undisturbed s (.reaps i)) {wait : Wait}
    (waiting : s.wait = some wait) {c : Child ρ} (here : s.children[i]? = some c)
    (ended : c.hasExited = true) (matching : c.matches_ wait.pid = true) :
    wait.owner = some i ∧ Awaited s i c := by
  obtain ⟨unreaped, choice⟩ := matches_iff.mp matching
  obtain ⟨j, d, owner, awaited, same⟩ := reaping.waits wait waiting
  have positive := reaping.positive d (List.mem_of_getElem? awaited.1)
  obtain rfl : i = j := by
    rcases same with any | same
    · exact Option.some.inj ((calm wait waiting any i c here unreaped ended).symm.trans owner)
    · apply reaping.unique i j c d here awaited.1 unreaped awaited.2.1
      omega
  cases here.symm.trans awaited.1
  exact ⟨owner, awaited⟩

theorem Reaping.reaps (reaping : Reaping s) {i status : ℕ} {c : Child ρ} (awaited : Awaited s i c)
    (place : c.pc = .exited status) :
    Reaping { s.setChild i { c with reaped := true } with
      wait := none
      results := s.results ++ [⟨some i, some i, status⟩] } := by
  obtain ⟨here, -, closed⟩ := awaited
  have inside := lt_length_of_getElem? here
  have others {j : ℕ} {d : Child ρ} (there : s.children[j]? = some d) (other : j ≠ i) :
      (s.children.set i { c with reaped := true })[j]? = some d := by
    rw [List.getElem?_set_ne other.symm, there]
  have self : (s.children.set i { c with reaped := true })[i]? = some { c with reaped := true } :=
    List.getElem?_set_self inside
  refine ⟨fun d member => ?_, fun j k d e there there' unreaped unreaped' same => ?_,
    fun fp file pid open_ known => ?_, fun wait waiting => (nomatch waiting), ⟨fun e member => ?_,
    fun j d there gone => ?_, fun fp file j d open_ owner there => ?_⟩⟩
  · obtain old | rfl := List.mem_or_eq_of_mem_set member
    · exact reaping.positive d old
    · exact reaping.positive c (List.mem_of_getElem? here)
  · rcases getElem?_set_cases there with ⟨rfl, rfl⟩ | ⟨-, old⟩
    · nomatch unreaped
    · rcases getElem?_set_cases there' with ⟨rfl, rfl⟩ | ⟨-, old'⟩
      · nomatch unreaped'
      · exact reaping.unique j k d e old old' unreaped unreaped' same
  · obtain ⟨j, d, owner, there, same⟩ := reaping.listed fp file pid open_ known
    exact ⟨j, d, owner, others there fun hit => closed fp file open_ (hit ▸ owner), same⟩
  · obtain old | new := List.mem_append.mp member
    · obtain ⟨j, d, owner, reaped, there, gone, ended⟩ := reaping.paired.results e old
      by_cases hit : j = i
      · subst hit
        cases here.symm.trans there
        exact ⟨j, _, owner, reaped, self, rfl, ended⟩
      · exact ⟨j, d, owner, reaped, others there hit, gone, ended⟩
    · obtain rfl := List.mem_singleton.mp new
      exact ⟨i, _, rfl, rfl, self, rfl, place⟩
  · obtain ⟨rfl, -⟩ | ⟨-, old⟩ := getElem?_set_cases there
    · exact ⟨_, List.mem_append_right _ (List.mem_singleton_self _), rfl, rfl⟩
    · obtain ⟨e, member, rest⟩ := reaping.paired.reaped j d old gone
      exact ⟨e, List.mem_append_left _ member, rest⟩
  · obtain ⟨rfl, -⟩ | ⟨-, old⟩ := getElem?_set_cases there
    · exact absurd owner (closed fp file open_)
    · exact reaping.paired.opened fp file j d open_ owner old

theorem reaping_step {e : Event} (inv : Inv s) (reaping : Reaping s) (calm : Undisturbed s e)
    (taken : step s e = some t) : Reaping t := by
  cases e with
  | myPopen write fp pid =>
    obtain ⟨waiting, free, positive, fresh, rfl⟩ := step_myPopen taken
    exact reaping.myPopen inv free waiting positive fresh write
  | myPopenUnforked write fp => exact calm.elim
  | fwrite fp bytes flushed =>
    obtain ⟨file, here, -, rfl⟩ := step_fwrite taken
    exact (reaping.buffer here _).withPipes _
  | myPclose fp =>
    obtain ⟨-, file, pid, here, known, rfl⟩ := step_myPclose taken
    exact (reaping.myPclose inv here known _).withPipes _
  | interrupted =>
    obtain ⟨wait, waiting, rfl⟩ := step_interrupted taken
    refine ⟨reaping.positive, reaping.unique, reaping.listed, fun wait' waiting' => ?_,
      reaping.paired.results, reaping.paired.reaped, reaping.paired.opened⟩
    obtain ⟨i, c, owner, awaited, -⟩ := reaping.waits wait waiting
    cases waiting'
    exact ⟨i, c, owner, awaited, .inl rfl⟩
  | reaps i =>
    obtain ⟨wait, c, status, waiting, here, place, matching, rfl⟩ := step_reaps taken
    have ended : c.hasExited = true := by rw [Child.hasExited, place]
    obtain ⟨owner, awaited⟩ := reaping.owner_reaps calm waiting here ended matching
    rw [owner]
    exact reaping.reaps awaited place
  | noChild =>
    obtain ⟨wait, waiting, none_, rfl⟩ := step_noChild taken
    obtain ⟨i, c, -, ⟨here, unreaped, -⟩, same⟩ := reaping.waits wait waiting
    cases (none_ c (List.mem_of_getElem? here)).symm.trans (matches_iff.mpr ⟨unreaped, same⟩)
  | drop i fp =>
    obtain ⟨c, file, here, place, -, rfl⟩ := step_drop taken
    refine (reaping.setChild here ?_ ?_ ?_).withPipes _
    · rfl
    · rfl
    · exact fun _ ended => ended
  | act i =>
    obtain ⟨c, next, here, acts, rfl⟩ := step_act taken
    obtain ⟨running, -, kept, -⟩ := act_frame acts
    have same := (Child.identity_eq (act_fits (inv.fits i c here).1 acts).2).1
    apply reaping.setChild here same kept
    intro status ended
    rw [Child.hasExited, ended] at running
    cases running
  | read i n =>
    obtain ⟨c, id, here, -, -, rfl⟩ := step_read taken
    refine (reaping.setChild here ?_ ?_ ?_).withPipes _
    · rfl
    · rfl
    · exact fun _ ended => ended
  | exit i status =>
    obtain ⟨c, here, running, rfl⟩ := step_exit taken
    refine reaping.setChild here rfl rfl fun status ended => ?_
    rw [Child.hasExited, ended] at running
    cases running

end

/-! ## Whole runs -/

/-- In every run that meets the condition, whatever the order of the calls, the exits and the
interruptions. -/
theorem paired_of_undisturbed {fds : FdTable ρ} {es : List Event} {s : State ρ}
    (ran : exec step (start fds) es = some s) (calm : AllSteps step Undisturbed (start fds) es) :
    Paired s := by
  have both : Inv s ∧ Reaping s := exec_invariant_of_allSteps (I := fun s => Inv s ∧ Reaping s)
    (fun _ _ _ both calm taken => ⟨inv_step both.1 taken, reaping_step both.1 both.2 calm taken⟩)
    ran calm ⟨inv_start fds, reaping_start fds⟩
  exact both.2.paired

/-- The interruption does no harm while the other child runs on. -/
def inTurn : List Event :=
  [.myPopen true 1 100, .myPopen true 2 101, .myPclose 1, .interrupted, .exit 0 3, .reaps 0, .myPclose 2, .exit 1 7,
    .reaps 1]

def inTurnEnd : State Unit := (exec step (start noStdin) inTurn).get (by decide +kernel)

theorem paired_of_undisturbed_inTurn :
    inTurnEnd.results = [⟨some 0, some 0, 3⟩, ⟨some 1, some 1, 7⟩] ∧ Paired inTurnEnd :=
  ⟨by decide +kernel, paired_of_undisturbed (Option.some_get _).symm (by decide +kernel)⟩

/-- The second child exits while `my_pclose` of the first stream is interrupted. -/
def twoChildren : List Event :=
  [.myPopen true 1 100, .myPopen true 2 101, .myPclose 1, .interrupted, .exit 1 7, .reaps 1]

def twoChildrenEnd : State Unit := (exec step (start noStdin) twoChildren).get (by decide +kernel)

theorem not_paired_twoChildren : ¬ ∀ s, Reachable step (start noStdin) s → Paired s := by
  intro paired
  have results : twoChildrenEnd.results = [⟨some 0, some 1, 7⟩] := by decide +kernel
  obtain ⟨i, c, owner, reaped, -⟩ :=
    (paired twoChildrenEnd ⟨twoChildren, (Option.some_get _).symm⟩).results ⟨some 0, some 1, 7⟩
      (results ▸ List.mem_singleton_self _)
  nomatch owner.trans reaped.symm

end SystemProgramming.Popen
