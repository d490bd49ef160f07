import PracticeHand.ClientServer.ExchangeStates
import PracticeHand.Concurrency.Progress

/-!
# Every exchange comes to its end

Each step lessens what is left to do, so every run is finite; and as long as a
child of the client has not made all its rounds, some step is possible.  The
measure has to count a byte of a request until it is stored, a byte of a reply until
it is read, and what every connection still needs on either side.
-/

namespace PracticeHand
namespace Exchange

open Concurrency
open WebChild
open Readline

variable {m n : Nat} {args : Client} {loop : Loop} {kernel : Kernel} {s t : State m n}

/-!
## Sums over the connections
-/

def State.total (s : State m n) (f : Link -> Nat) : Nat :=
  ∑ c ∈ Finset.range s.made, f (s.link c)

theorem total_congr {f : Link -> Nat} (h : forall c, t.link c = s.link c)
    (hmade : t.made = s.made) : t.total f = s.total f := by
  simp only [State.total, hmade, h]

theorem total_turn {f : Link -> Nat} {fd : Nat} (hmade : t.made = s.made) (hfd : fd < s.made)
    (hother : forall c, c ≠ fd -> t.link c = s.link c) :
    t.total f + f (s.link fd) = s.total f + f (t.link fd) := by
  have hmem : fd ∈ Finset.range s.made := Finset.mem_range.mpr hfd
  have hrest : ∑ c ∈ (Finset.range s.made).erase fd, f (t.link c) =
      ∑ c ∈ (Finset.range s.made).erase fd, f (s.link c) := by
    apply Finset.sum_congr rfl
    intro c hc
    rw [hother c (Finset.ne_of_mem_erase hc)]
  rw [State.total, State.total, hmade, ← Finset.add_sum_erase _ _ hmem,
    ← Finset.add_sum_erase (Finset.range s.made) (fun c => f (s.link c)) hmem, hrest]
  lia

theorem total_connect {f : Link -> Nat} (hmade : t.made = s.made + 1)
    (hother : forall c, c ≠ s.made -> t.link c = s.link c) :
    t.total f = s.total f + f (t.link s.made) := by
  have hrest : ∑ c ∈ Finset.range s.made, f (t.link c) =
      ∑ c ∈ Finset.range s.made, f (s.link c) := by
    apply Finset.sum_congr rfl
    intro c hc
    rw [hother c (Nat.ne_of_lt (Finset.mem_range.mp hc))]
  rw [State.total, State.total, hmade, Finset.sum_range_succ, hrest]

/-!
## What is left to do
-/

def ServerView.left : ServerView -> Nat
  | .queued => 7
  | .unlocking => 4
  | .counting => 3
  | .reading _ ahead => 2 * ahead.length + 2
  | .writing _ _ => 3
  | .closing _ => 1
  | .gone => 0

/-- A byte of the reply counts twice until it is written and once until it is read. -/
def ClientView.left (args : Client) (toClient : Nat) : ClientView -> Nat
  | .writing => 3 * (request args.nbytes).length + 2 * args.nbytes + 3
  | .reading nleft => 2 * nleft - toClient + 2
  | .closing => 1
  | .gone => 0

def Link.left (args : Client) (l : Link) : Nat :=
  l.client.left args l.wire.toClient + l.server.left + 3 * l.wire.toServer.length

theorem left_of_before {v : ServerView} {a : Nat} (h : v.before = some a) :
    v.left = (if a = 3 then 7 else a + 2) ∧ a ≤ 3 := by
  unfold ServerView.before at h
  split at h
  · cases h
    exact ⟨rfl, by decide⟩
  · cases h
    exact ⟨rfl, by decide⟩
  · cases h
    exact ⟨rfl, by decide⟩
  · cases h
    exact ⟨rfl, by decide⟩
  · cases h

theorem Valid.toClient_le {w : Wire} {nleft : Nat} {v : ServerView}
    (h : Valid args ⟨w, .reading nleft, v⟩) : w.toClient ≤ nleft := by
  cases h with
  | answering hleft => lia
  | answered => exact Nat.le_refl _
  | _ => exact Nat.zero_le _

theorem Valid.ahead_of_writing {w : Wire} {c : ClientView} {nleft : Nat}
    {ahead : List UInt8} (h : Valid args ⟨w, c, .writing nleft ahead⟩) : ahead = [] := by
  cases h with
  | fresh hbefore => cases hbefore
  | asked _ _ hbefore => cases hbefore
  | answering _ => rfl
  | closing hv =>
      simp only [ServerView.writing.injEq, reduceCtorEq, or_false] at hv
      exact hv.2
  | closed hv =>
      simp only [ServerView.writing.injEq, reduceCtorEq, or_false] at hv
      exact hv.2

theorem Valid.reader_of_writing {w : Wire} {c : ClientView} {nleft : Nat}
    {ahead : List UInt8} (h : Valid args ⟨w, c, .writing nleft ahead⟩) (hnleft : 0 < nleft) :
    c = .reading (w.toClient + nleft) := by
  cases h with
  | fresh hbefore => cases hbefore
  | asked _ _ hbefore => cases hbefore
  | answering hleft => rw [hleft]
  | closing hv =>
      simp only [ServerView.writing.injEq, reduceCtorEq, or_false] at hv
      lia
  | closed hv =>
      simp only [ServerView.writing.injEq, reduceCtorEq, or_false] at hv
      lia

theorem Talk.left_lt {l l' : Link} (h : Talk args l l') (hvalid : Valid args l) :
    l'.left args < l.left args := by
  cases h with
  | write =>
      simp only [Link.left, ClientView.left, List.length_append]
      lia
  | read hpos hnleft hbytes =>
      have hle := hvalid.toClient_le
      simp only [Link.left, ClientView.left]
      lia
  | readAll =>
      simp only [Link.left, ClientView.left]
      lia
  | hangUp =>
      simp only [Link.left, ClientView.left]
      lia
  | start hv hu hlt =>
      rcases left_of_before hv with ⟨hvleft, ha⟩
      rcases left_of_before hu with ⟨huleft, _⟩
      simp only [Link.left, hvleft, huleft]
      split <;> split <;> lia
  | fill hpos hbytes =>
      simp only [Link.left, ServerView.left, List.length_drop, List.length_take,
        List.length_nil]
      lia
  | store _ =>
      simp only [Link.left, ServerView.left, List.length_cons]
      lia
  | request _ =>
      simp only [Link.left, ServerView.left, List.length_cons]
      lia
  | lastLine _ hclosed hline => exact absurd (hvalid.line_of_closed hclosed) hline
  | endOfFile _ _ =>
      simp only [Link.left, ServerView.left]
      lia
  | reply hpos hnleft =>
      obtain rfl := hvalid.reader_of_writing (Nat.lt_of_lt_of_le hpos hnleft)
      simp only [Link.left, ClientView.left, ServerView.left]
      lia
  | replied =>
      obtain rfl := hvalid.ahead_of_writing
      simp only [Link.left, ServerView.left, List.length_nil]
      lia
  | close =>
      simp only [Link.left, ServerView.left]
      lia

def Client.price (args : Client) : Nat :=
  3 * (request args.nbytes).length + 2 * args.nbytes + 11

def ClientPc.left (args : Client) (pc : ClientPc) : Nat :=
  (args.nloops - pc.made args.nloops) * args.price + pc.running.toNat

def ServerPc.left : ServerPc -> Nat
  | .lock => 1
  | .accept => 0
  | _ => 2

def State.left (args : Client) (s : State m n) : Nat :=
  ∑ i, (s.client i).left args + ∑ i, (s.server i).left + s.total (Link.left args)

theorem Talks.left_lt (h : ExchangeInv args loop s) {fd : Nat} (htalks : Talks args s t fd) :
    t.total (Link.left args) + 1 ≤ s.total (Link.left args) := by
  have htotal := total_turn (f := Link.left args) htalks.made htalks.lt htalks.other
  have hlt := htalks.talk.left_lt (h.valid fd htalks.lt)
  lia

theorem left_connect {j : Nat} (hj : j < args.nloops) (fd : Nat) :
    (ClientPc.connect j).left args = (ClientPc.write j fd).left args + args.price := by
  have hrounds : args.nloops - j = args.nloops - (j + 1) + 1 := by lia
  simp only [ClientPc.left, ClientPc.made, ClientPc.running, hrounds, Nat.add_mul, Nat.one_mul]
  lia

theorem sum_goClient (args : Client) (s : State m n) (i : Fin m) (pc : ClientPc) :
    ∑ k, ((s.goClient i pc).client k).left args + (s.client i).left args =
      ∑ k, (s.client k).left args + pc.left args :=
  sum_update (ClientPc.left args) s.client i pc

theorem sum_goServer (s : State m n) (i : Fin n) (pc : ServerPc) :
    ∑ k, ((s.goServer i pc).server k).left + (s.server i).left =
      ∑ k, (s.server k).left + pc.left :=
  sum_update ServerPc.left s.server i pc

theorem clientMove_left (h : ExchangeInv args loop s) {i : Fin m}
    (hmove : ClientMove args kernel s i t) : t.left args < s.left args := by
  have hquits : ClientSide args t := ClientSide.move h hmove
  cases hmove with
  | @connect j hpc hj _ _ =>
      have htotal := total_connect (f := Link.left args) (s := s)
        (t := (s.connect i).goClient i (.write j s.made)) rfl
        (fun c hc => (connect_turn hpc).link_other hc)
      have hsum := sum_goClient args (s.connect i) i (.write j s.made)
      have hnew : Link.left args ⟨{}, .writing, .queued⟩ + 1 = args.price := rfl
      rw [link_connect hpc] at htotal
      change _ + (s.client i).left args = ∑ k, (s.client k).left args + _ at hsum
      rw [hpc, left_connect hj s.made] at hsum
      change _ + ∑ k, (s.server k).left + _ < _
      rw [State.left]
      lia
  | @done j hpc hj =>
      have htotal : (s.goClient i .done).total (Link.left args) = s.total (Link.left args) :=
        total_congr (link_goClient (by rw [hpc]; rfl) rfl) rfl
      have hsum := sum_goClient args s i .done
      have hrounds : (args.nloops - j) * args.price = 0 := by
        rw [Nat.sub_eq_zero_of_le (Nat.le_of_not_lt hj), Nat.zero_mul]
      rw [hpc] at hsum
      have hbefore : (ClientPc.connect j).left args = 1 := by
        simp only [ClientPc.left, ClientPc.made, ClientPc.running, hrounds]
        rfl
      have hafter : ClientPc.done.left args = 0 := by
        simp only [ClientPc.left, ClientPc.made, ClientPc.running, Nat.sub_self, Nat.zero_mul]
        rfl
      rw [hbefore, hafter] at hsum
      change _ + ∑ k, (s.server k).left + _ < _
      rw [State.left]
      lia
  | @talk fd w pc hfd hpc hrunning hmade htalk =>
      have hless := (h.client.talks hfd hpc htalk).left_lt h
      have hsum := sum_goClient args (s.setWire fd w) i pc
      have hsame : pc.left args = (s.client i).left args := by
        have hwas : (s.client i).running = true := by
          cases hwhere : s.client i with
          | done => rw [hwhere] at hfd; cases hfd
          | quit k => rw [hwhere] at hfd; cases hfd
          | failed => rw [hwhere] at hfd; cases hfd
          | _ => rfl
        rw [ClientPc.left, ClientPc.left, hmade, hrunning, hwas]
      change _ + (s.client i).left args = ∑ k, (s.client k).left args + _ at hsum
      change _ + ∑ k, (s.server k).left + _ < _
      rw [State.left]
      lia
  | short _ _ _ _ => exact absurd (Function.update_self _ _ _) ((hquits.runs i).2 _)
  | refused _ _ => exact absurd (Function.update_self _ _ _) (hquits.runs i).1
  | reset _ _ => exact absurd (Function.update_self _ _ _) (hquits.runs i).1

theorem left_of_talks (h : ExchangeInv args loop s) {i : Fin n} {connfd : Nat}
    {pc : ServerPc} (htalks : Talks args s t connfd) (hclient : t.client = s.client)
    (hserver : t.server = Function.update s.server i pc)
    (hpc : pc.left ≤ (s.server i).left) : t.left args < s.left args := by
  have hless := htalks.left_lt h
  have hsum := sum_update ServerPc.left s.server i pc
  rw [State.left, State.left, hclient, hserver]
  lia

theorem left_of_serving {pc : ServerPc} (h : pc.serving = true) : pc.left = 2 := by
  cases pc with
  | readline _ _ => rfl
  | writen _ _ => rfl
  | close _ => rfl
  | _ => cases h

theorem left_le_two (pc : ServerPc) : pc.left ≤ 2 := by
  cases pc <;> simp [ServerPc.left]

/-- The other steps pay for themselves; this one has to pay for the way back to `accept`
as well. -/
theorem ExchangeInv.accept_left (h : ExchangeInv args loop s) {i : Fin n} {connfd : Nat}
    {rest : List Nat} (hpc : s.server i = .accept) (hpending : s.pending = connfd :: rest) :
    ({ s with
      pending := rest
      owner := Function.update s.owner connfd (some i) }.goServer i
        (loop.accepted connfd)).left args < s.left args := by
  have htalks : Talks args s _ connfd := h.talks_accept hpc hpending
  have htotal := total_turn (f := Link.left args) htalks.made htalks.lt htalks.other
  have hsum := sum_update ServerPc.left s.server i (loop.accepted connfd)
  have hturn : ServerTurn s _ i connfd _ _ (loop.accepted connfd) :=
    @accept_turn _ _ loop s i connfd rest hpc
  have hnone := ((h.handout.queued connfd).mp
    (by rw [hpending]; exact List.mem_cons_self)).2
  have hbefore : ServerView.queued.left = 7 := rfl
  have hafter : ((loop.accepted connfd).look []).left ≤ 4 := by
    rcases before_accepted loop connfd with ⟨b, hb, hb3⟩
    rw [(left_of_before hb).1, if_neg (Nat.ne_of_lt hb3)]
    lia
  have htwo := left_le_two (loop.accepted connfd)
  rw [hturn.link_connfd, h.server.drained i (by rw [hpc]; rfl)] at htotal
  simp only [Link.left, State.link, State.serverView, hnone] at htotal
  rw [hpc] at hsum
  change _ + 0 = _ at hsum
  change ∑ k, (s.client k).left args +
    ∑ k, (Function.update s.server i (loop.accepted connfd) k).left + _ < _
  rw [State.left]
  lia

theorem serverMove_left (hmin : 1 ≤ args.nbytes) (hmax : args.nbytes ≤ maxn)
    (h : ExchangeInv args loop s) {i : Fin n} (hmove : ServerMove args loop s i t) :
    t.left args < s.left args := by
  have hruns := (h.serverMove hmin hmax hmove).server.runs i
  cases hmove with
  | select hpc _ =>
      have htotal : (s.goServer i loop.selected).total (Link.left args) =
          s.total (Link.left args) :=
        total_congr (link_goServer (by rw [hpc]; rfl) (connfd_selected loop)) rfl
      have hsum := sum_goServer s i loop.selected
      have hlt : loop.selected.left < 2 := by
        unfold Loop.selected
        split <;> decide
      rw [hpc] at hsum
      change ∑ k, (s.client k).left args + _ + _ < _
      rw [State.left]
      change _ + 2 = _ at hsum
      lia
  | lock hpc _ =>
      have htotal : ({ s with holder := some i }.goServer i .accept).total (Link.left args) =
          s.total (Link.left args) :=
        total_congr (fun c => @link_goServer m n { s with holder := some i } i .accept
          (by change (s.server i).connfd = none; rw [hpc]; rfl) rfl c) rfl
      have hsum := sum_update ServerPc.left s.server i .accept
      rw [hpc] at hsum
      change ∑ k, (s.client k).left args +
        ∑ k, (Function.update s.server i .accept k).left + _ < _
      rw [State.left]
      change _ + 1 = _ + 0 at hsum
      lia
  | @accept connfd rest hpc hpending =>
      exact h.accept_left hpc hpending
  | @unlock connfd hpc =>
      refine left_of_talks h (h.talks_unlock hpc) rfl rfl ?_
      rw [hpc]
      exact left_le_two _
  | @count connfd hpc =>
      refine left_of_talks h (h.talks_count hpc) rfl rfl ?_
      rw [hpc]
      exact left_le_two _
  | @talk connfd w ahead pc hconnfd hserving hpc hpcServing htalk =>
      refine left_of_talks h (h.handout.talks_serving hconnfd hpc htalk) rfl rfl ?_
      rw [left_of_serving hserving]
      exact left_le_two _
  | @close connfd hpc =>
      refine left_of_talks h (h.handout.talks_close hpc) rfl rfl ?_
      rw [hpc]
      exact left_le_two _
  | badLine => exact absurd (exitServer_self _ _) (hruns _).1
  | badLastLine => exact absurd (exitServer_self _ _) (hruns _).1
  | brokenPipe => exact absurd (exitServer_self _ _) (hruns 0).2

/-!
## Some step is possible
-/

def Stuck (args : Client) (loop : Loop) (kernel : Kernel) (s : State m n) : Prop :=
  forall a, (exchange m n args loop kernel).step s a = none

theorem Stuck.client (h : Stuck args loop kernel s) (i : Fin m) (bytes : Nat) :
    clientStep args kernel s i bytes = none :=
  h (.client i bytes)

theorem Stuck.server (h : Stuck args loop kernel s) (hup : s.down = false) (i : Fin n)
    (bytes : Nat) : serverStep loop kernel s i bytes = none := by
  have hstep := h (.server i bytes)
  simp only [exchange, hup, Bool.false_eq_true, if_false] at hstep
  exact hstep

theorem Stuck.connect (h : Stuck args loop kernel s) {i : Fin m} {j : Nat}
    (hpc : s.client i = .connect j) : kernel.backlog ≤ s.pending.length := by
  have hstep := h.client i 0
  simp only [clientStep, hpc] at hstep
  split at hstep
  · split at hstep
    · cases hstep
    · split at hstep
      · cases hstep
      · lia
  · cases hstep

theorem Stuck.readn (h : Stuck args loop kernel s) {i : Fin m} {j fd nleft : Nat}
    (hpc : s.client i = .readn j fd nleft) : 0 < nleft ∧ (s.wire fd).toClient = 0 := by
  have hstep := h.client i 1
  simp only [clientStep, hpc] at hstep
  split at hstep
  · cases hstep
  · rename_i hnleft
    split at hstep
    · rename_i hnone
      exact ⟨Nat.pos_of_ne_zero hnleft, hnone⟩
    · rename_i hsome
      rw [if_pos (by lia)] at hstep
      cases hstep

theorem Stuck.look (h : Stuck args loop kernel s) {i : Fin m} {fd : Nat}
    (hfd : (s.client i).fd = some fd) :
    exists nleft, (s.client i).look = .reading nleft ∧ 0 < nleft ∧ (s.wire fd).toClient = 0 := by
  cases hpc : s.client i with
  | readn j c nleft =>
      rw [hpc] at hfd
      cases hfd
      exact ⟨nleft, rfl, h.readn hpc⟩
  | write j c =>
      have hstep := h.client i 0
      simp only [clientStep, hpc] at hstep
      cases hstep
  | close j c =>
      have hstep := h.client i 0
      simp only [clientStep, hpc] at hstep
      cases hstep
  | _ =>
      rw [hpc] at hfd
      cases hfd

theorem Stuck.clientView (h : Stuck args loop kernel s) {c : Nat} (hc : s.clientView c ≠ .gone) :
    exists nleft, s.clientView c = .reading nleft ∧ 0 < nleft ∧ (s.wire c).toClient = 0 := by
  unfold State.clientView at hc ⊢
  split at hc
  · exact absurd rfl hc
  · rename_i i hpeer
    unfold ClientPc.view at hc ⊢
    split at hc
    · rename_i hfd
      rw [if_pos hfd]
      exact h.look hfd
    · exact absurd rfl hc

theorem Stuck.readline (h : Stuck args loop kernel s) (hup : s.down = false)
    (hchunk : 0 < loop.chunk) {i : Fin n}
    {connfd : Nat} {line : List UInt8} (hpc : s.server i = .readline connfd line) :
    s.ahead i = [] ∧ (s.wire connfd).toServer = [] ∧ (s.wire connfd).clientClosed = false := by
  have hstep := h.server hup i 1
  simp only [serverStep, hpc] at hstep
  split at hstep
  · cases hstep
  · rename_i hahead
    split at hstep
    · rename_i hnone
      split at hstep
      · cases hstep
      · rename_i hopen
        exact ⟨hahead, hnone, Bool.eq_false_iff.mpr hopen⟩
    · rename_i hsome
      have hpos := List.length_pos_of_ne_nil hsome
      rw [if_pos ⟨Nat.one_pos, hchunk, hpos⟩] at hstep
      cases hstep

theorem Stuck.writen (h : Stuck args loop kernel s) (hup : s.down = false) {i : Fin n}
    {connfd nleft : Nat}
    (hpc : s.server i = .writen connfd nleft) :
    0 < nleft ∧ kernel.room ≤ (s.wire connfd).toClient := by
  have hstep := h.server hup i 1
  simp only [serverStep, hpc] at hstep
  split at hstep
  · cases hstep
  · rename_i hnleft
    split at hstep
    · cases hstep
    · split at hstep
      · cases hstep
      · rename_i hfull
        exact ⟨Nat.pos_of_ne_zero hnleft, by lia⟩

theorem Valid.not_reading {w : Wire} {c : ClientView} {line : List UInt8}
    (h : Valid args ⟨w, c, .reading line []⟩) (hnone : w.toServer = [])
    (hopen : w.clientClosed = false) :
    c = .writing ∨ c = .closing ∨ c = .reading w.toClient := by
  cases h with
  | fresh _ => exact Or.inl rfl
  | asked htoServer _ _ =>
      dsimp only at hnone
      rw [hnone, request] at htoServer
      simp at htoServer
  | asking hline hmem _ =>
      dsimp only at hnone
      rw [hnone, List.append_nil, List.append_nil] at hline
      rw [hline, request, List.mem_append, List.mem_singleton] at hmem
      exact absurd (Or.inr rfl) hmem
  | answered => exact Or.inr (Or.inr rfl)
  | closing _ => exact Or.inr (Or.inl rfl)
  | closed _ => cases hopen

/-- Where nobody can do anything, no server has a connection. -/
theorem ExchangeInv.idle_of_stuck (h : ExchangeInv args loop s)
    (hstuck : Stuck args loop kernel s) (hchunk : 0 < loop.chunk) (hroom : 0 < kernel.room)
    (i : Fin n) : (s.server i).connfd = none := by
  cases hpc : s.server i with
  | readline connfd line =>
      rcases hstuck.readline h.server.up hchunk hpc with ⟨hahead, hnone, hopen⟩
      have hreading := h.valid_connfd (show (s.server i).connfd = some connfd by rw [hpc]; rfl)
      rw [hpc, hahead] at hreading
      rcases hreading.not_reading hnone hopen with hview | hview | hview <;>
        rcases hstuck.clientView (by rw [hview]; exact nofun) with ⟨nleft, hsame, hpos, hzero⟩ <;>
        rw [hview] at hsame
      · cases hsame
      · cases hsame
      · rw [hzero] at hsame
        cases hsame
        cases hpos
  | writen connfd nleft =>
      rcases hstuck.writen h.server.up hpc with ⟨hnleft, hfull⟩
      have hwriting := h.valid_connfd (show (s.server i).connfd = some connfd by rw [hpc]; rfl)
      rw [hpc] at hwriting
      have hview := hwriting.reader_of_writing hnleft
      rcases hstuck.clientView (by rw [hview]; exact nofun) with ⟨_, _, _, hzero⟩
      lia
  | unlock connfd =>
      have hstep := hstuck.server h.server.up i 0
      simp only [serverStep, hpc] at hstep
      cases hstep
  | count connfd =>
      have hstep := hstuck.server h.server.up i 0
      simp only [serverStep, hpc] at hstep
      cases hstep
  | close connfd =>
      have hstep := hstuck.server h.server.up i 0
      simp only [serverStep, hpc] at hstep
      cases hstep
  | _ => rfl

/-- An idle server, or the one that holds the lock, could accept. -/
theorem ExchangeInv.pending_of_stuck (h : ExchangeInv args loop s)
    (hstuck : Stuck args loop kernel s) (hidle : forall i, (s.server i).connfd = none)
    (hn : 0 < n) : s.pending = [] := by
  have haccept : forall i, s.server i = .accept -> s.pending = [] := by
    intro i hpc
    have hstep := hstuck.server h.server.up i 0
    simp only [serverStep, hpc] at hstep
    split at hstep
    · assumption
    · cases hstep
  let first : Fin n := ⟨0, hn⟩
  have hconnfd := hidle first
  cases hpc : s.server first with
  | select =>
      have hstep := hstuck.server h.server.up first 0
      simp only [serverStep, hpc] at hstep
      split at hstep
      · assumption
      · cases hstep
  | lock =>
      have hstep := hstuck.server h.server.up first 0
      simp only [serverStep, hpc] at hstep
      split at hstep
      · cases hstep
      · rename_i hheld
        rcases Option.ne_none_iff_exists'.mp hheld with ⟨j, hj⟩
        have hholds := (h.handout.holder j).mpr hj
        have hnone := hidle j
        cases hwhere : s.server j with
        | accept => exact haccept j hwhere
        | unlock _ =>
            rw [hwhere] at hnone
            cases hnone
        | _ =>
            rw [hwhere] at hholds
            cases hholds
  | accept => exact haccept first hpc
  | quit v => exact absurd hpc (h.server.runs first v).1
  | brokenPipe => exact absurd hpc (h.server.runs first 0).2
  | _ =>
      rw [hpc] at hconnfd
      cases hconnfd

theorem Valid.of_gone {w : Wire} {c : ClientView} (h : Valid args ⟨w, c, .gone⟩) :
    w = { clientClosed := true, serverClosed := true } ∧ c = .gone := by
  cases h with
  | fresh hbefore => cases hbefore
  | asked _ _ hbefore => cases hbefore
  | closing hv => simp at hv
  | closed hv => simp at hv
  | gone => exact ⟨rfl, rfl⟩

theorem Handout.gone_of_idle (h : Handout loop s)
    (hidle : forall i, (s.server i).connfd = none) (hpending : s.pending = []) {c : Nat}
    (hc : c < s.made) : s.serverView c = .gone := by
  unfold State.serverView
  split
  · rename_i hnone
    have hmem := (h.queued c).mpr ⟨hc, hnone⟩
    rw [hpending] at hmem
    cases hmem
  · rename_i j _
    rw [ServerPc.view, hidle j, if_neg (by simp)]

theorem ExchangeInv.done_of_stuck (h : ExchangeInv args loop s)
    (hstuck : Stuck args loop kernel s) (hidle : forall i, (s.server i).connfd = none)
    (hpending : s.pending = []) (hbacklog : 0 < kernel.backlog) (i : Fin m) :
    s.client i = .done := by
  cases hfd : (s.client i).fd with
  | some fd =>
      have hlt := (h.client.fds i fd hfd).1
      have hvalid := h.valid fd hlt
      rw [h.client.link_fd hfd, h.handout.gone_of_idle hidle hpending hlt] at hvalid
      rcases hstuck.look hfd with ⟨nleft, hlook, _, _⟩
      rw [hvalid.of_gone.2] at hlook
      cases hlook
  | none =>
      cases hpc : s.client i with
      | done => rfl
      | quit k => exact absurd hpc ((h.client.runs i).2 k)
      | failed => exact absurd hpc (h.client.runs i).1
      | connect j =>
          have hfull := hstuck.connect hpc
          rw [hpending] at hfull
          exact absurd hfull (Nat.not_le.mpr hbacklog)
      | _ =>
          rw [hpc] at hfd
          cases hfd

/-!
## Results
-/

theorem left_start (args : Client) (loop : Loop) :
    (start m n loop).left args ≤ m * (args.nloops * args.price + 1) + 2 * n := by
  have hclients : ∑ i, ((start m n loop).client i).left args =
      m * (args.nloops * args.price + 1) := by
    have hone : forall i, ((start m n loop).client i).left args =
        args.nloops * args.price + 1 := fun _ => rfl
    simp only [hone, Finset.sum_const, Finset.card_univ, Fintype.card_fin]
    rfl
  have hservers : ∑ i, ((start m n loop).server i).left ≤ n * 2 := by
    have hle : ∑ i, ((start m n loop).server i).left ≤ ∑ _i : Fin n, 2 :=
      Finset.sum_le_sum (fun _ _ => left_le_two loop.top)
    simp only [Finset.sum_const, Finset.card_univ, Fintype.card_fin] at hle
    exact hle
  have htotal : (start m n loop).total (Link.left args) = 0 := Finset.sum_range_zero _
  rw [State.left, hclients, htotal]
  lia

theorem step_left (hmin : 1 ≤ args.nbytes) (hmax : args.nbytes ≤ maxn)
    (h : ExchangeInv args loop s) {a : Action m n}
    (hstep : (exchange m n args loop kernel).step s a = some t) :
    ExchangeInv args loop t ∧ t.left args < s.left args := by
  rcases moves_of_step hstep with ⟨i, hmove⟩ | ⟨i, hmove⟩
  · exact ⟨h.clientMove hmin hmax hmove, clientMove_left h hmove⟩
  · exact ⟨h.serverMove hmin hmax hmove, serverMove_left hmin hmax h hmove⟩

/-- If the client asks for a size that the server allows, nobody ever gives up, all runs
are finite with a bound that depends on the arguments only, and a run ends only when
every child of the client has made all its rounds and read all it asked for, nothing
waits, the servers are idle, and the counters add up to the connections made. -/
theorem exchange_completes (hmin : 1 ≤ args.nbytes) (hmax : args.nbytes ≤ maxn) (hn : 0 < n)
    (hchunk : 0 < loop.chunk) (hbacklog : 0 < kernel.backlog) (hroom : 0 < kernel.room) :
    (forall schedule u, System.Run (exchange m n args loop kernel) (start m n loop) schedule u ->
      schedule.length ≤ m * (args.nloops *
        (3 * (request args.nbytes).length + 2 * args.nbytes + 11) + 1) + 2 * n) ∧
    forall s, System.Reachable (exchange m n args loop kernel) s ->
      (forall i, s.client i ≠ .failed ∧ forall k, s.client i ≠ .quit k) ∧
      (forall i v, s.server i ≠ .quit v ∧ s.server i ≠ .brokenPipe) ∧
      (Stuck args loop kernel s ->
        (forall i, s.client i = .done) ∧
        (forall c, c < s.made -> s.wire c = { clientClosed := true, serverClosed := true }) ∧
        s.pending = [] ∧ (forall i, (s.server i).connfd = none) ∧
        s.made = m * args.nloops ∧
        (loop.counts = true -> ∑ i, s.count i = m * args.nloops)) := by
  constructor
  · intro schedule u hrun
    have hlength := hrun.length_le (State.left args)
      (fun hinv _ hstep => step_left hmin hmax hinv hstep) exchangeInv_start
    exact Nat.le_trans (Nat.le_trans (Nat.le_add_right _ _) hlength) (left_start args loop)
  · intro s hs
    have h : ExchangeInv args loop s := reachable_exchangeInv hmin hmax hs
    refine ⟨h.client.runs, h.server.runs, fun hstuck => ?_⟩
    have hidle := h.idle_of_stuck hstuck hchunk hroom
    have hpending := h.pending_of_stuck hstuck hidle hn
    have hdone := h.done_of_stuck hstuck hidle hpending hbacklog
    have hmade : s.made = m * args.nloops := by
      have hone : forall i, (s.client i).made args.nloops = args.nloops := by
        intro i
        rw [hdone i]
        rfl
      simp only [h.client.made, hone, Finset.sum_const, Finset.card_univ, Fintype.card_fin]
      rfl
    refine ⟨hdone, ?_, hpending, hidle, hmade, ?_⟩
    · intro c hc
      have hvalid := h.valid c hc
      rw [State.link, h.handout.gone_of_idle hidle hpending hc] at hvalid
      exact hvalid.of_gone.1
    · intro hcounts
      have hsum := h.handout.counted hcounts
      have hnone : countWhere ServerPc.uncounted s.server = 0 := by
        apply countWhere_eq_zero.mpr
        intro i
        have hi := hidle i
        cases hpc : s.server i with
        | unlock _ => rw [hpc] at hi; cases hi
        | count _ => rw [hpc] at hi; cases hi
        | _ => rfl
      rw [hpending, hnone, hmade] at hsum
      exact hsum

/-- Every exchange can be carried on to its end. -/
theorem exists_stuck (hmin : 1 ≤ args.nbytes) (hmax : args.nbytes ≤ maxn) :
    exists schedule u, System.Run (exchange m n args loop kernel) (start m n loop) schedule u ∧
      Stuck args loop kernel u := by
  have hstart : ExchangeInv args loop (start m n loop) := exchangeInv_start
  refine System.exists_run_until (State.left args) ?_ hstart
  intro s hs hgoal
  simp only [Stuck, not_forall, ← ne_eq, Option.ne_none_iff_exists'] at hgoal
  rcases hgoal with ⟨a, t, hstep⟩
  rcases step_left hmin hmax hs hstep with ⟨ht, hless⟩
  exact ⟨a, t, trivial, hstep, ht, hless⟩

/-- Two children of the client, three of the server. -/
theorem exchange_completes_two :
    exists (schedule : List (Action 2 3)) (s : State 2 3), System.Run
      (exchange 2 3 { nloops := 2, nbytes := 12 } child03m { backlog := 1, room := 4 })
        (start 2 3 child03m) schedule s ∧
      schedule.length ≤ 2 * (2 * (3 * (request 12).length + 2 * 12 + 11) + 1) + 2 * 3 ∧
      (forall i, s.client i = .done) ∧ s.made = 4 ∧ ∑ i, s.count i = 4 := by
  rcases @exists_stuck 2 3 { nloops := 2, nbytes := 12 } child03m { backlog := 1, room := 4 }
    (by decide) (by decide) with ⟨schedule, s, hrun, hstuck⟩
  rcases @exchange_completes 2 3 { nloops := 2, nbytes := 12 } child03m
    { backlog := 1, room := 4 } (by decide) (by decide) (by decide) (by decide) (by decide)
    (by decide) with ⟨hbound, hreach⟩
  rcases hreach s ⟨_, schedule, rfl, hrun⟩ with ⟨_, _, hend⟩
  rcases hend hstuck with ⟨hdone, _, _, _, hmade, hcounted⟩
  exact ⟨schedule, s, hrun, hbound schedule s hrun, hdone, hmade, hcounted rfl⟩

end Exchange
end PracticeHand
