import PracticeHand.ClientServer.ExchangeHandout

/-!
# The reachable states of an exchange

If the client asks for a size that the server allows, every connection is in one of
its states, the children of the client only use their own connections, and no side
gives up: a line that `readline` returns is all of a request.
-/

namespace PracticeHand
namespace Exchange

open Concurrency
open WebChild
open Readline

variable {m n : Nat} {args : Client} {loop : Loop} {kernel : Kernel} {s t : State m n}

structure ClientSide (args : Client) (s : State m n) : Prop where
  fds : forall i fd, (s.client i).fd = some fd -> fd < s.made ∧ s.peer fd = some i
  loops : forall i, (s.client i).made args.nloops ≤ args.nloops
  runs : forall i, s.client i ≠ .failed ∧ forall n, s.client i ≠ .quit n
  made : s.made = ∑ i, (s.client i).made args.nloops

/-- No server has given up, and a static buffer is empty outside `web_child`. -/
structure ServerSide (s : State m n) : Prop where
  up : s.down = false
  runs : forall i v, s.server i ≠ .quit v ∧ s.server i ≠ .brokenPipe
  drained : forall i, (s.server i).serving = false -> s.ahead i = []

structure ExchangeInv (args : Client) (loop : Loop) (s : State m n) : Prop where
  valid : forall c, c < s.made -> Valid args (s.link c)
  client : ClientSide args s
  handout : Handout loop s
  server : ServerSide s

theorem link_goClient {i : Fin m} {pc : ClientPc} (hbefore : (s.client i).fd = none)
    (hafter : pc.fd = none) (c : Nat) : (s.goClient i pc).link c = s.link c := by
  have hview : forall j, ((s.goClient i pc).client j).view c = (s.client j).view c := by
    intro j
    by_cases hj : j = i
    · subst hj
      simp [State.goClient, ClientPc.view, hbefore, hafter]
    · simp only [State.goClient, Function.update_of_ne hj]
  simp only [State.link, State.clientView, hview]
  rfl

theorem link_goServer {i : Fin n} {pc : ServerPc} (hbefore : (s.server i).connfd = none)
    (hafter : pc.connfd = none) (c : Nat) : (s.goServer i pc).link c = s.link c := by
  have hview : forall j, ((s.goServer i pc).server j).view (s.ahead j) c =
      (s.server j).view (s.ahead j) c := by
    intro j
    by_cases hj : j = i
    · subst hj
      simp [State.goServer, ServerPc.view, hbefore, hafter]
    · simp only [State.goServer, Function.update_of_ne hj]
  simp only [State.link, State.serverView]
  have hahead : (s.goServer i pc).ahead = s.ahead := rfl
  simp only [hahead, hview]
  rfl

structure Talks (args : Client) (s t : State m n) (fd : Nat) : Prop where
  made : t.made = s.made
  lt : fd < s.made
  talk : Talk args (s.link fd) (t.link fd)
  other : forall c, c ≠ fd -> t.link c = s.link c

theorem Talks.valid (hmin : 1 ≤ args.nbytes) (hmax : args.nbytes ≤ maxn) {fd : Nat}
    (h : Talks args s t fd) (hvalid : forall c, c < s.made -> Valid args (s.link c)) :
    forall c, c < t.made -> Valid args (t.link c) := by
  intro c hc
  rw [h.made] at hc
  by_cases heq : c = fd
  · subst heq
    exact (hvalid c hc).talk hmin hmax h.talk
  · rw [h.other c heq]
    exact hvalid c hc

/-!
## Steps of the client
-/

theorem ClientSide.congr (h : ClientSide args s) (hclient : t.client = s.client)
    (hpeer : t.peer = s.peer) (hmade : t.made = s.made) : ClientSide args t := by
  constructor
  · rw [hclient, hpeer, hmade]
    exact h.fds
  · rw [hclient]
    exact h.loops
  · rw [hclient]
    exact h.runs
  · rw [hclient, hmade]
    exact h.made

theorem ClientSide.goClient (h : ClientSide args s) {i : Fin m} {pc : ClientPc}
    (hclient : t.client = Function.update s.client i pc)
    (hpeer : forall c, c < s.made -> t.peer c = s.peer c) (hle : s.made ≤ t.made)
    (hfd : forall fd, pc.fd = some fd -> fd < t.made ∧ t.peer fd = some i)
    (hloops : pc.made args.nloops ≤ args.nloops)
    (hruns : pc ≠ .failed ∧ forall n, pc ≠ .quit n)
    (hmade : s.made + pc.made args.nloops = t.made + (s.client i).made args.nloops) :
    ClientSide args t := by
  constructor
  · intro j fd hj
    rw [hclient] at hj
    by_cases hi : j = i
    · subst hi
      rw [Function.update_self] at hj
      exact hfd fd hj
    · rw [Function.update_of_ne hi] at hj
      rcases h.fds j fd hj with ⟨hlt, hp⟩
      exact ⟨Nat.lt_of_lt_of_le hlt hle, (hpeer fd hlt).trans hp⟩
  · intro j
    rw [hclient]
    by_cases hi : j = i
    · subst hi
      rw [Function.update_self]
      exact hloops
    · rw [Function.update_of_ne hi]
      exact h.loops j
  · intro j
    rw [hclient]
    by_cases hi : j = i
    · subst hi
      rw [Function.update_self]
      exact hruns
    · rw [Function.update_of_ne hi]
      exact h.runs j
  · have hsum := sum_update (ClientPc.made args.nloops) s.client i pc
    rw [← h.made] at hsum
    rw [hclient]
    lia

theorem ServerSide.congr (h : ServerSide s) (hserver : t.server = s.server)
    (hahead : t.ahead = s.ahead) (hdown : t.down = s.down) : ServerSide t := by
  refine ⟨hdown.trans h.up, ?_, ?_⟩
  · rw [hserver]
    exact h.runs
  · rw [hserver, hahead]
    exact h.drained

theorem ClientSide.link_fd (h : ClientSide args s) {i : Fin m} {fd : Nat}
    (hfd : (s.client i).fd = some fd) :
    s.link fd = ⟨s.wire fd, (s.client i).look, s.serverView fd⟩ := by
  simp only [State.link, State.clientView, (h.fds i fd hfd).2,
    ClientPc.view_fd (Or.inl hfd)]

theorem ClientSide.turn (h : ClientSide args s) {i : Fin m} {fd : Nat} {w : Wire}
    {pc : ClientPc} (hfd : (s.client i).fd = some fd) (hpc : pc.fd = some fd ∨ pc.fd = none) :
    ClientTurn s ((s.setWire fd w).goClient i pc) i fd w pc where
  client := rfl
  wire := rfl
  peer := by
    rw [← (h.fds i fd hfd).2, Function.update_eq_self]
    rfl
  owner _ _ := rfl
  server := rfl
  ahead := rfl
  before := Or.inl hfd
  after := hpc

theorem ClientSide.talks (h : ClientSide args s) {i : Fin m} {fd : Nat} {w : Wire}
    {pc : ClientPc} (hfd : (s.client i).fd = some fd) (hpc : pc.fd = some fd ∨ pc.fd = none)
    (htalk : forall v, Talk args ⟨s.wire fd, (s.client i).look, v⟩ ⟨w, pc.look, v⟩) :
    Talks args s ((s.setWire fd w).goClient i pc) fd := by
  have hturn : ClientTurn s ((s.setWire fd w).goClient i pc) i fd w pc := h.turn hfd hpc
  refine ⟨rfl, (h.fds i fd hfd).1, ?_, fun c hc => hturn.link_other hc⟩
  rw [hturn.link_fd, h.link_fd hfd]
  exact htalk _

theorem connect_turn {i : Fin m} {j : Nat} (hpc : s.client i = .connect j) :
    ClientTurn s ((s.connect i).goClient i (.write j s.made)) i s.made {} (.write j s.made) where
  client := rfl
  wire := rfl
  peer := rfl
  owner _ hc := Function.update_of_ne hc _ _
  server := rfl
  ahead := rfl
  before := Or.inr (by rw [hpc]; rfl)
  after := Or.inl rfl

theorem link_connect {i : Fin m} {j : Nat} (hpc : s.client i = .connect j) :
    ((s.connect i).goClient i (.write j s.made)).link s.made = ⟨{}, .writing, .queued⟩ := by
  rw [(connect_turn hpc).link_fd]
  simp only [State.serverView, State.connect, State.goClient, Function.update_self]
  rfl

theorem runs_of_running {pc : ClientPc} (h : pc.running = true) :
    pc ≠ .failed ∧ forall n, pc ≠ .quit n := by
  constructor
  · intro heq
    subst heq
    cases h
  · intro k heq
    subst heq
    cases h

theorem look_of_fd {pc : ClientPc} {fd : Nat} (h : pc.fd = some fd) : pc.look ≠ .gone := by
  cases pc with
  | write _ _ => exact nofun
  | readn _ _ _ => exact nofun
  | close _ _ => exact nofun
  | _ => cases h

theorem ExchangeInv.not_closed (h : ExchangeInv args loop s) {i : Fin m} {fd : Nat}
    (hfd : (s.client i).fd = some fd) : ¬ (s.wire fd).serverClosed = true := by
  have hvalid := h.valid fd (h.client.fds i fd hfd).1
  rw [h.client.link_fd hfd] at hvalid
  rw [hvalid.open_of_client (look_of_fd hfd)]
  exact Bool.false_ne_true

theorem ClientSide.move (h : ExchangeInv args loop s) {i : Fin m}
    (hmove : ClientMove args kernel s i t) : ClientSide args t := by
  cases hmove with
  | @connect j hpc hj _ _ =>
      have hmade : (s.client i).made args.nloops = j := by rw [hpc]; rfl
      refine h.client.goClient rfl
        (fun c hc => Function.update_of_ne (Nat.ne_of_lt hc) _ _) (Nat.le_succ _) ?_ hj
        ⟨nofun, nofun⟩ ?_
      · intro fd hfd
        cases hfd
        exact ⟨Nat.lt_succ_self _, Function.update_self _ _ _⟩
      · rw [hmade]
        change s.made + (j + 1) = s.made + 1 + j
        lia
  | @done j hpc hj =>
      have hmade : (s.client i).made args.nloops = j := by rw [hpc]; rfl
      have hle := h.client.loops i
      refine h.client.goClient rfl (fun _ _ => rfl) (Nat.le_refl _)
        nofun (Nat.le_refl _) ⟨nofun, nofun⟩ ?_
      rw [hmade] at hle ⊢
      change s.made + args.nloops = s.made + j
      lia
  | @talk fd w pc hfd hpc hrunning hmade _ =>
      refine h.client.goClient rfl (fun _ _ => rfl) (Nat.le_refl _) ?_ ?_ ?_ ?_
      · intro fd' hfd'
        rcases hpc with hpc | hpc
        · rw [hpc] at hfd'
          cases hfd'
          exact h.client.fds i fd hfd
        · rw [hpc] at hfd'
          cases hfd'
      · rw [hmade]
        exact h.client.loops i
      · exact runs_of_running hrunning
      · rw [hmade]
        rfl
  | short hpc _ _ hclosed => exact absurd hclosed (h.not_closed (by rw [hpc]; rfl))
  | refused _ hdown =>
      rw [h.server.up] at hdown
      cases hdown
  | reset hfd hclosed => exact absurd hclosed (h.not_closed hfd)

theorem ExchangeInv.clientMove (hmin : 1 ≤ args.nbytes) (hmax : args.nbytes ≤ maxn)
    (h : ExchangeInv args loop s) {i : Fin m} (hmove : ClientMove args kernel s i t) :
    ExchangeInv args loop t := by
  have hclient : ClientSide args t := ClientSide.move h hmove
  have hhandout : Handout loop t := h.handout.clientMove hmove
  cases hmove with
  | @connect j hpc hj _ _ =>
      have hother : forall c, c ≠ s.made -> _ := fun c hc => (connect_turn hpc).link_other hc
      refine ⟨?_, hclient, hhandout, h.server.congr rfl rfl rfl⟩
      intro c hc
      by_cases heq : c = s.made
      · rw [heq, link_connect hpc]
        exact .fresh rfl
      · rw [hother c heq]
        exact h.valid c (by change c < s.made + 1 at hc; lia)
  | @done j hpc hj =>
      refine ⟨?_, hclient, hhandout, h.server.congr rfl rfl rfl⟩
      intro c hc
      rw [link_goClient (by rw [hpc]; rfl) rfl]
      exact h.valid c hc
  | @talk fd w pc hfd hpc hrunning hmade htalk =>
      exact ⟨(h.client.talks hfd hpc htalk).valid hmin hmax h.valid, hclient,
        hhandout, h.server.congr rfl rfl rfl⟩
  | short _ _ _ _ => exact absurd (Function.update_self _ _ _) ((hclient.runs i).2 _)
  | refused _ _ => exact absurd (Function.update_self _ _ _) (hclient.runs i).1
  | reset _ _ => exact absurd (Function.update_self _ _ _) (hclient.runs i).1

/-!
## Steps of the server
-/

theorem runs_top (loop : Loop) (v : Int) : loop.top ≠ .quit v ∧ loop.top ≠ .brokenPipe := by
  unfold Loop.top
  split
  · exact ⟨nofun, nofun⟩
  · split <;> exact ⟨nofun, nofun⟩

theorem look_top (loop : Loop) (ahead : List UInt8) : loop.top.look ahead = .gone := by
  unfold Loop.top
  split
  · rfl
  · split <;> rfl

theorem connfd_selected (loop : Loop) : loop.selected.connfd = none := by
  unfold Loop.selected
  split <;> rfl

theorem before_unlocked (loop : Loop) (connfd : Nat) :
    exists b, ((loop.unlocked connfd).look []).before = some b ∧ b < 2 := by
  unfold Loop.unlocked
  split
  · exact ⟨1, rfl, by decide⟩
  · exact ⟨0, rfl, by decide⟩

theorem before_accepted (loop : Loop) (connfd : Nat) :
    exists b, ((loop.accepted connfd).look []).before = some b ∧ b < 3 := by
  unfold Loop.accepted
  split
  · exact ⟨2, rfl, by decide⟩
  · rcases before_unlocked loop connfd with ⟨b, hb, hlt⟩
    exact ⟨b, hb, Nat.lt_succ_of_lt hlt⟩

theorem runs_of_connfd {pc : ServerPc} {connfd : Nat} (h : pc.connfd = some connfd)
    (v : Int) : pc ≠ .quit v ∧ pc ≠ .brokenPipe := by
  constructor
  · intro heq
    subst heq
    cases h
  · intro heq
    subst heq
    cases h

theorem Handout.link_connfd (h : Handout loop s) {i : Fin n} {connfd : Nat}
    (hconnfd : (s.server i).connfd = some connfd) :
    s.link connfd = ⟨s.wire connfd, s.clientView connfd, (s.server i).look (s.ahead i)⟩ := by
  simp only [State.link, State.serverView, (h.connfds i connfd hconnfd).2,
    ServerPc.view_connfd _ (Or.inl hconnfd)]

theorem Handout.turn (h : Handout loop s) {i : Fin n} {connfd : Nat} {w : Wire}
    {ahead : List UInt8} {pc : ServerPc} (hconnfd : (s.server i).connfd = some connfd)
    (hpc : pc.connfd = some connfd ∨ pc.connfd = none)
    (hserver : t.server = Function.update s.server i pc)
    (hwire : t.wire = Function.update s.wire connfd w)
    (hahead : t.ahead = Function.update s.ahead i ahead) (howner : t.owner = s.owner)
    (hpeer : t.peer = s.peer) (hclient : t.client = s.client) (hmade : t.made = s.made) :
    ServerTurn s t i connfd w ahead pc where
  server := hserver
  wire := hwire
  ahead := hahead
  owner := by rw [howner, ← (h.connfds i connfd hconnfd).2, Function.update_eq_self]
  peer := hpeer
  client := hclient
  made := hmade
  before := Or.inl hconnfd
  after := hpc

theorem accept_turn {i : Fin n} {connfd : Nat} {rest : List Nat}
    (hpc : s.server i = .accept) :
    ServerTurn s ({ s with
      pending := rest
      owner := Function.update s.owner connfd (some i) }.goServer i (loop.accepted connfd))
      i connfd (s.wire connfd) (s.ahead i) (loop.accepted connfd) where
  server := rfl
  wire := (Function.update_eq_self _ _).symm
  ahead := (Function.update_eq_self _ _).symm
  owner := rfl
  peer := rfl
  client := rfl
  made := rfl
  before := Or.inr (by rw [hpc]; rfl)
  after := Or.inl (connfd_accepted loop connfd)

theorem Handout.unlock_turn (h : Handout loop s) {i : Fin n} {connfd : Nat}
    (hpc : s.server i = .unlock connfd) :
    ServerTurn s ({ s with holder := none }.goServer i (loop.unlocked connfd)) i connfd
      (s.wire connfd) (s.ahead i) (loop.unlocked connfd) :=
  h.turn (by rw [hpc]; rfl) (Or.inl (connfd_unlocked _ _)) rfl
    (Function.update_eq_self _ _).symm (Function.update_eq_self _ _).symm rfl rfl rfl rfl

theorem Handout.count_turn (h : Handout loop s) {i : Fin n} {connfd : Nat}
    (hpc : s.server i = .count connfd) :
    ServerTurn s ({ s with
      count := Function.update s.count i (s.count i + 1) }.goServer i (.readline connfd []))
      i connfd (s.wire connfd) (s.ahead i) (.readline connfd []) :=
  h.turn (by rw [hpc]; rfl) (Or.inl rfl) rfl
    (Function.update_eq_self _ _).symm (Function.update_eq_self _ _).symm rfl rfl rfl rfl

theorem Handout.close_turn (h : Handout loop s) {i : Fin n} {connfd : Nat}
    (hpc : s.server i = .close connfd) :
    ServerTurn s ((s.setWire connfd { s.wire connfd with
      serverClosed := true }).goServer i loop.top) i connfd
      { s.wire connfd with serverClosed := true } (s.ahead i) loop.top :=
  h.turn (by rw [hpc]; rfl) (Or.inr (connfd_top loop)) rfl rfl
    (Function.update_eq_self _ _).symm rfl rfl rfl rfl

theorem Handout.talks (h : Handout loop s) {i : Fin n} {connfd : Nat} {w : Wire}
    {ahead : List UInt8} {pc : ServerPc} (hturn : ServerTurn s t i connfd w ahead pc)
    (hconnfd : (s.server i).connfd = some connfd)
    (htalk : forall c, Talk args ⟨s.wire connfd, c, (s.server i).look (s.ahead i)⟩
      ⟨w, c, pc.look ahead⟩) : Talks args s t connfd := by
  refine ⟨hturn.made, (h.connfds i connfd hconnfd).1, ?_, fun c hc => hturn.link_other hc⟩
  rw [hturn.link_connfd, h.link_connfd hconnfd]
  exact htalk _

theorem Handout.talks_serving (h : Handout loop s) {i : Fin n} {connfd : Nat} {w : Wire}
    {ahead : List UInt8} {pc : ServerPc} (hconnfd : (s.server i).connfd = some connfd)
    (hpc : pc.connfd = some connfd)
    (htalk : forall c, Talk args ⟨s.wire connfd, c, (s.server i).look (s.ahead i)⟩
      ⟨w, c, pc.look ahead⟩) :
    Talks args s (((s.setWire connfd w).setAhead i ahead).goServer i pc) connfd :=
  h.talks (h.turn hconnfd (Or.inl hpc) rfl rfl rfl rfl rfl rfl rfl) hconnfd htalk

theorem Handout.talks_close (h : Handout loop s) {i : Fin n} {connfd : Nat}
    (hpc : s.server i = .close connfd) :
    Talks args s ((s.setWire connfd { s.wire connfd with
      serverClosed := true }).goServer i loop.top) connfd := by
  refine h.talks (h.close_turn hpc) (by rw [hpc]; rfl) (fun c => ?_)
  rw [hpc, look_top]
  exact .close

theorem ExchangeInv.talks_accept (h : ExchangeInv args loop s) {i : Fin n} {connfd : Nat}
    {rest : List Nat} (hpc : s.server i = .accept) (hpending : s.pending = connfd :: rest) :
    Talks args s ({ s with
      pending := rest
      owner := Function.update s.owner connfd (some i) }.goServer i
        (loop.accepted connfd)) connfd := by
  have hturn : ServerTurn s _ i connfd _ _ (loop.accepted connfd) :=
    @accept_turn _ _ loop s i connfd rest hpc
  rcases (h.handout.queued connfd).mp (by rw [hpending]; exact List.mem_cons_self) with ⟨hlt, hnone⟩
  rcases before_accepted loop connfd with ⟨b, hb, hb3⟩
  refine ⟨rfl, hlt, ?_, fun c hc => hturn.link_other hc⟩
  rw [hturn.link_connfd, h.server.drained i (by rw [hpc]; rfl)]
  simp only [State.link, State.serverView, hnone]
  exact .start rfl hb hb3

theorem ExchangeInv.talks_unlock (h : ExchangeInv args loop s) {i : Fin n} {connfd : Nat}
    (hpc : s.server i = .unlock connfd) :
    Talks args s ({ s with holder := none }.goServer i (loop.unlocked connfd)) connfd := by
  refine h.handout.talks (h.handout.unlock_turn hpc) (by rw [hpc]; rfl) (fun c => ?_)
  rcases before_unlocked loop connfd with ⟨b, hb, hb2⟩
  rw [h.server.drained i (by rw [hpc]; rfl), hpc]
  exact .start rfl hb hb2

theorem ExchangeInv.talks_count (h : ExchangeInv args loop s) {i : Fin n} {connfd : Nat}
    (hpc : s.server i = .count connfd) :
    Talks args s ({ s with
      count := Function.update s.count i (s.count i + 1) }.goServer i
        (.readline connfd [])) connfd := by
  refine h.handout.talks (h.handout.count_turn hpc) (by rw [hpc]; rfl) (fun c => ?_)
  rw [h.server.drained i (by rw [hpc]; rfl), hpc]
  exact .start rfl rfl Nat.one_pos

theorem exitServer_self {loop : Loop} (s : State m n) (connfd : Nat) {i : Fin n}
    {pc : ServerPc} : (s.exitServer loop i connfd pc).server i = pc := by
  unfold State.exitServer
  split <;> exact Function.update_self _ _ _

theorem ServerSide.goServer (h : ServerSide s) {i : Fin n} {pc : ServerPc}
    (hserver : t.server = Function.update s.server i pc)
    (hahead : forall j, j ≠ i -> t.ahead j = s.ahead j) (hdown : t.down = s.down)
    (hruns : forall v, pc ≠ .quit v ∧ pc ≠ .brokenPipe)
    (hdrained : pc.serving = false -> t.ahead i = []) : ServerSide t := by
  refine ⟨hdown.trans h.up, ?_, ?_⟩
  · intro j v
    rw [hserver]
    by_cases hi : j = i
    · subst hi
      rw [Function.update_self]
      exact hruns v
    · rw [Function.update_of_ne hi]
      exact h.runs j v
  · intro j hj
    rw [hserver] at hj
    by_cases hi : j = i
    · subst hi
      rw [Function.update_self] at hj
      exact hdrained hj
    · rw [Function.update_of_ne hi] at hj
      rw [hahead j hi]
      exact h.drained j hj

theorem ExchangeInv.valid_connfd (h : ExchangeInv args loop s) {i : Fin n} {connfd : Nat}
    (hconnfd : (s.server i).connfd = some connfd) :
    Valid args ⟨s.wire connfd, s.clientView connfd, (s.server i).look (s.ahead i)⟩ := by
  rw [← h.handout.link_connfd hconnfd]
  exact h.valid connfd (h.handout.connfds i connfd hconnfd).1

theorem ServerSide.move (hmax : args.nbytes ≤ maxn) (h : ExchangeInv args loop s) {i : Fin n}
    (hmin : 1 ≤ args.nbytes) (hmove : ServerMove args loop s i t) : ServerSide t := by
  cases hmove with
  | select hpc _ =>
      refine h.server.goServer rfl (fun _ _ => rfl) rfl ?_
        (fun _ => h.server.drained i (by rw [hpc]; rfl))
      unfold Loop.selected
      split <;> exact fun v => ⟨nofun, nofun⟩
  | lock hpc _ =>
      exact h.server.goServer rfl (fun _ _ => rfl) rfl (fun v => ⟨nofun, nofun⟩)
        (fun _ => h.server.drained i (by rw [hpc]; rfl))
  | accept hpc _ =>
      exact h.server.goServer rfl (fun _ _ => rfl) rfl (runs_of_connfd (connfd_accepted _ _))
        (fun _ => h.server.drained i (by rw [hpc]; rfl))
  | unlock hpc =>
      exact h.server.goServer rfl (fun _ _ => rfl) rfl (runs_of_connfd (connfd_unlocked _ _))
        (fun _ => h.server.drained i (by rw [hpc]; rfl))
  | count hpc =>
      exact h.server.goServer rfl (fun _ _ => rfl) rfl (fun v => ⟨nofun, nofun⟩)
        (fun _ => h.server.drained i (by rw [hpc]; rfl))
  | @talk connfd w ahead pc hconnfd hserving hpc hpcServing _ =>
      refine h.server.goServer rfl (fun j hj => Function.update_of_ne hj _ _) rfl
        (runs_of_connfd hpc) ?_
      intro hnot
      rw [hpcServing] at hnot
      cases hnot
  | @close connfd hpc =>
      have hclosing := h.valid_connfd (show (s.server i).connfd = some connfd by rw [hpc]; rfl)
      rw [hpc] at hclosing
      exact h.server.goServer rfl (fun _ _ => rfl) rfl (runs_top loop)
        (fun _ => hclosing.ahead_of_closing)
  | @badLine connfd line rest x hpc hahead hfull hsize =>
      have hreading := h.valid_connfd (show (s.server i).connfd = some connfd by rw [hpc]; rfl)
      rw [hpc, hahead] at hreading
      rw [(hreading.of_full hmax hfull).1] at hsize
      lia
  | @badLastLine connfd line hpc hahead hline hnone hclosed hsize =>
      have hreading := h.valid_connfd (show (s.server i).connfd = some connfd by rw [hpc]; rfl)
      rw [hpc, hahead] at hreading
      exact absurd (hreading.line_of_closed hclosed) hline
  | @brokenPipe connfd nleft hpc hnleft hclosed =>
      have hwriting := h.valid_connfd (show (s.server i).connfd = some connfd by rw [hpc]; rfl)
      rw [hpc] at hwriting
      exact absurd hclosed (by rw [hwriting.open_of_writing hnleft]; exact Bool.false_ne_true)

theorem ExchangeInv.serverMove (hmin : 1 ≤ args.nbytes) (hmax : args.nbytes ≤ maxn)
    (h : ExchangeInv args loop s) {i : Fin n} (hmove : ServerMove args loop s i t) :
    ExchangeInv args loop t := by
  have hserver : ServerSide t := ServerSide.move hmax h hmin hmove
  have hhandout : Handout loop t := h.handout.serverMove hmove
  cases hmove with
  | select hpc _ =>
      refine ⟨?_, h.client.congr rfl rfl rfl, hhandout, hserver⟩
      intro c hc
      rw [link_goServer (by rw [hpc]; rfl) (connfd_selected loop)]
      exact h.valid c hc
  | lock hpc hfree =>
      refine ⟨?_, h.client.congr rfl rfl rfl, hhandout, hserver⟩
      intro c hc
      rw [link_goServer (by change (s.server i).connfd = none; rw [hpc]; rfl) rfl]
      exact h.valid c hc
  | accept hpc hpending =>
      exact ⟨(h.talks_accept hpc hpending).valid hmin hmax h.valid,
        h.client.congr rfl rfl rfl, hhandout, hserver⟩
  | unlock hpc =>
      exact ⟨(h.talks_unlock hpc).valid hmin hmax h.valid,
        h.client.congr rfl rfl rfl, hhandout, hserver⟩
  | count hpc =>
      exact ⟨(h.talks_count hpc).valid hmin hmax h.valid,
        h.client.congr rfl rfl rfl, hhandout, hserver⟩
  | talk hconnfd hserving hpc hpcServing htalk =>
      exact ⟨(h.handout.talks_serving hconnfd hpc htalk).valid hmin hmax h.valid,
        h.client.congr rfl rfl rfl, hhandout, hserver⟩
  | close hpc =>
      exact ⟨(h.handout.talks_close hpc).valid hmin hmax h.valid,
        h.client.congr rfl rfl rfl, hhandout, hserver⟩
  | badLine => exact absurd (exitServer_self _ _) (hserver.runs i _).1
  | badLastLine => exact absurd (exitServer_self _ _) (hserver.runs i _).1
  | brokenPipe => exact absurd (exitServer_self _ _) (hserver.runs i 0).2

theorem exchangeInv_start : ExchangeInv args loop (start m n loop) := by
  refine ⟨nofun, ?_, handout_start, rfl, fun _ v => runs_top loop v, fun _ _ => rfl⟩
  constructor
  · exact nofun
  · exact fun _ => Nat.zero_le _
  · exact fun _ => ⟨nofun, nofun⟩
  · exact (Finset.sum_eq_zero fun _ _ => rfl).symm

theorem reachable_exchangeInv (hmin : 1 ≤ args.nbytes) (hmax : args.nbytes ≤ maxn)
    (h : System.Reachable (exchange m n args loop kernel) s) : ExchangeInv args loop s := by
  refine System.ReachableUnder.invariant ?_ ?_ h
  · intro s0 hs
    rw [show s0 = start m n loop from hs]
    exact exchangeInv_start
  · intro s1 s2 a hinv _ hstep
    rcases moves_of_step hstep with ⟨i, hmove⟩ | ⟨i, hmove⟩
    · exact hinv.clientMove hmin hmax hmove
    · exact hinv.serverMove hmin hmax hmove

end Exchange
end PracticeHand
