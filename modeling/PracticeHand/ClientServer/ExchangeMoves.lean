import PracticeHand.ClientServer.ExchangeLinks

/-!
# The steps of an exchange

What a step of a client or of a server can do, and what the reachable states have
in common: every connection is in one of its states, and each side only uses the
connections it has.
-/

namespace PracticeHand
namespace Exchange

open Concurrency
open WebChild
open Readline

variable {m n : Nat} {args : Client} {loop : Loop} {kernel : Kernel} {s t : State m n}

/-!
## Moves
-/

def ClientPc.made (nloops : Nat) : ClientPc -> Nat
  | .connect j => j
  | .write j _ => j + 1
  | .readn j _ _ => j + 1
  | .close j _ => j + 1
  | .done => nloops
  | .quit _ => 0
  | .failed => 0

def ClientPc.running : ClientPc -> Bool
  | .done => false
  | .quit _ => false
  | .failed => false
  | _ => true

def ServerPc.serving : ServerPc -> Bool
  | .readline _ _ => true
  | .writen _ _ => true
  | .close _ => true
  | _ => false

inductive ClientMove (args : Client) (kernel : Kernel) (s : State m n) (i : Fin m) :
    State m n -> Prop where
  | connect {j : Nat} : s.client i = .connect j -> j < args.nloops ->
      s.down = false -> s.pending.length < kernel.backlog ->
      ClientMove args kernel s i ((s.connect i).goClient i (.write j s.made))
  | done {j : Nat} : s.client i = .connect j -> ¬ j < args.nloops ->
      ClientMove args kernel s i (s.goClient i .done)
  | talk {fd : Nat} {w : Wire} {pc : ClientPc} : (s.client i).fd = some fd ->
      pc.fd = some fd ∨ pc.fd = none -> pc.running = true ->
      pc.made args.nloops = (s.client i).made args.nloops ->
      (forall v, Talk args ⟨s.wire fd, (s.client i).look, v⟩ ⟨w, pc.look, v⟩) ->
      ClientMove args kernel s i ((s.setWire fd w).goClient i pc)
  | short {j fd nleft : Nat} : s.client i = .readn j fd nleft -> 0 < nleft ->
      (s.wire fd).toClient = 0 -> (s.wire fd).serverClosed = true ->
      ClientMove args kernel s i (s.exitClient i fd (.quit (args.nbytes - nleft)))
  | refused {j : Nat} : s.client i = .connect j -> s.down = true ->
      ClientMove args kernel s i (s.goClient i .failed)
  | reset {fd : Nat} : (s.client i).fd = some fd -> (s.wire fd).serverClosed = true ->
      ClientMove args kernel s i (s.exitClient i fd .failed)

theorem clientMove_of_reset {i : Fin m} (h : resetStep s i = some t) :
    ClientMove args kernel s i t := by
  unfold resetStep at h
  split at h
  · rename_i j fd hpc
    split at h
    · rename_i hclosed
      cases h
      exact .reset (by rw [hpc]; rfl) hclosed
    · cases h
  · rename_i j fd nleft hpc
    split at h
    · rename_i hclosed
      cases h
      exact .reset (by rw [hpc]; rfl) hclosed
    · cases h
  · cases h

theorem clientMove_of_step {i : Fin m} {bytes : Nat}
    (h : clientStep args kernel s i bytes = some t) : ClientMove args kernel s i t := by
  unfold clientStep at h
  split at h
  · rename_i j hpc
    split at h
    · rename_i hj
      split at h
      · rename_i hdown
        cases h
        exact .refused hpc hdown
      · rename_i hup
        split at h
        · rename_i hroom
          cases h
          exact .connect hpc hj (Bool.eq_false_iff.mpr hup) hroom
        · cases h
    · rename_i hj
      cases h
      exact .done hpc hj
  · rename_i j fd hpc
    cases h
    refine .talk (by rw [hpc]; rfl) (Or.inl rfl) rfl (by rw [hpc]; rfl) ?_
    intro v
    rw [hpc]
    exact .write
  · rename_i j fd nleft hpc
    dsimp only at h
    split at h
    · rename_i hnleft
      subst hnleft
      cases h
      have hself : s.setWire fd (s.wire fd) = s := by
        rw [State.setWire, Function.update_eq_self]
      have hmove : ClientMove args kernel s i
          ((s.setWire fd (s.wire fd)).goClient i (.close j fd)) := by
        refine .talk (by rw [hpc]; rfl) (Or.inl rfl) rfl (by rw [hpc]; rfl) ?_
        intro v
        rw [hpc]
        exact .readAll
      rw [hself] at hmove
      exact hmove
    · rename_i hnleft
      split at h
      · rename_i hnone
        split at h
        · rename_i hclosed
          cases h
          exact .short hpc (Nat.pos_of_ne_zero hnleft) hnone hclosed
        · cases h
      · split at h
        · rename_i hbytes
          rcases hbytes with ⟨hpos, hle, havail⟩
          cases h
          refine .talk (by rw [hpc]; rfl) (Or.inl rfl) rfl (by rw [hpc]; rfl) ?_
          intro v
          rw [hpc]
          exact .read hpos hle havail
        · cases h
  · rename_i j fd hpc
    cases h
    refine .talk (by rw [hpc]; rfl) (Or.inr rfl) rfl (by rw [hpc]; rfl) ?_
    intro v
    rw [hpc]
    exact .hangUp
  · cases h
  · cases h
  · cases h

inductive ServerMove (args : Client) (loop : Loop) (s : State m n) (i : Fin n) :
    State m n -> Prop where
  | select : s.server i = .select -> s.pending ≠ [] ->
      ServerMove args loop s i (s.goServer i loop.selected)
  | lock : s.server i = .lock -> s.holder = none ->
      ServerMove args loop s i ({ s with holder := some i }.goServer i .accept)
  | accept {connfd : Nat} {rest : List Nat} : s.server i = .accept ->
      s.pending = connfd :: rest ->
      ServerMove args loop s i ({ s with
        pending := rest
        owner := Function.update s.owner connfd (some i) }.goServer i (loop.accepted connfd))
  | unlock {connfd : Nat} : s.server i = .unlock connfd ->
      ServerMove args loop s i ({ s with holder := none }.goServer i (loop.unlocked connfd))
  | count {connfd : Nat} : s.server i = .count connfd ->
      ServerMove args loop s i ({ s with
        count := Function.update s.count i (s.count i + 1) }.goServer i (.readline connfd []))
  | talk {connfd : Nat} {w : Wire} {ahead : List UInt8} {pc : ServerPc} :
      (s.server i).connfd = some connfd -> (s.server i).serving = true ->
      pc.connfd = some connfd -> pc.serving = true ->
      (forall c, Talk args ⟨s.wire connfd, c, (s.server i).look (s.ahead i)⟩
        ⟨w, c, pc.look ahead⟩) ->
      ServerMove args loop s i (((s.setWire connfd w).setAhead i ahead).goServer i pc)
  | close {connfd : Nat} : s.server i = .close connfd ->
      ServerMove args loop s i ((s.setWire connfd { s.wire connfd with
        serverClosed := true }).goServer i loop.top)
  | badLine {connfd : Nat} {line rest : List UInt8} {x : UInt8} :
      s.server i = .readline connfd line -> s.ahead i = x :: rest ->
      x = newline ∨ line.length + 1 = maxline - 1 ->
      size (line ++ [x]) ≤ 0 ∨ maxn < size (line ++ [x]) ->
      ServerMove args loop s i ((s.setAhead i rest).exitServer loop i connfd
        (.quit (size (line ++ [x]))))
  | badLastLine {connfd : Nat} {line : List UInt8} :
      s.server i = .readline connfd line -> s.ahead i = [] -> line ≠ [] ->
      (s.wire connfd).toServer = [] -> (s.wire connfd).clientClosed = true ->
      size line ≤ 0 ∨ maxn < size line ->
      ServerMove args loop s i (s.exitServer loop i connfd (.quit (size line)))
  | brokenPipe {connfd nleft : Nat} : s.server i = .writen connfd nleft -> 0 < nleft ->
      (s.wire connfd).clientClosed = true ->
      ServerMove args loop s i (s.exitServer loop i connfd .brokenPipe)

theorem ServerMove.quiet {i : Fin n} {connfd : Nat} {pc : ServerPc}
    (hconnfd : (s.server i).connfd = some connfd) (hserving : (s.server i).serving = true)
    (hpc : pc.connfd = some connfd) (hpcServing : pc.serving = true)
    (htalk : forall c, Talk args ⟨s.wire connfd, c, (s.server i).look (s.ahead i)⟩
      ⟨s.wire connfd, c, pc.look (s.ahead i)⟩) :
    ServerMove args loop s i (s.goServer i pc) := by
  have hself : (s.setWire connfd (s.wire connfd)).setAhead i (s.ahead i) = s := by
    rw [State.setAhead, State.setWire, Function.update_eq_self, Function.update_eq_self]
  have hmove : ServerMove args loop s i
      (((s.setWire connfd (s.wire connfd)).setAhead i (s.ahead i)).goServer i pc) :=
    .talk hconnfd hserving hpc hpcServing htalk
  rw [hself] at hmove
  exact hmove

theorem serverMove_of_readline {i : Fin n} {bytes connfd : Nat} {line : List UInt8}
    (hpc : s.server i = .readline connfd line)
    (h : serverStep loop kernel s i bytes = some t) : ServerMove args loop s i t := by
  have hconnfd : (s.server i).connfd = some connfd := by rw [hpc]; rfl
  have hserving : (s.server i).serving = true := by rw [hpc]; rfl
  simp only [serverStep, hpc] at h
  cases hahead : s.ahead i with
  | cons x rest =>
      have hself : s.setWire connfd (s.wire connfd) = s := by
        rw [State.setWire, Function.update_eq_self]
      have htalk : forall {pc : ServerPc}, pc.connfd = some connfd -> pc.serving = true ->
          (forall c, Talk args ⟨s.wire connfd, c, .reading line (x :: rest)⟩
            ⟨s.wire connfd, c, pc.look rest⟩) ->
          ServerMove args loop s i ((s.setAhead i rest).goServer i pc) := by
        intro pc hpcConnfd hpcServing htalk
        rw [← hahead] at htalk
        have hmove : ServerMove args loop s i
            (((s.setWire connfd (s.wire connfd)).setAhead i rest).goServer i pc) :=
          .talk hconnfd hserving hpcConnfd hpcServing (by rw [hpc]; exact htalk)
        rw [hself] at hmove
        exact hmove
      rw [hahead] at h
      cases h
      unfold store
      split
      · rename_i hfull
        unfold examine
        split
        · rename_i hsize
          exact .badLine hpc hahead hfull hsize
        · exact htalk rfl rfl (fun c => .request hfull)
      · rename_i hfull
        exact htalk rfl rfl (fun c => .store (fun hx => hfull (Or.inl hx)))
  | nil =>
      rw [hahead] at h
      dsimp only at h
      split at h
      · rename_i hnone
        split at h
        · rename_i hclosed
          cases h
          unfold endOfFile
          split
          · rename_i hline
            refine ServerMove.quiet hconnfd hserving rfl rfl (fun c => ?_)
            rw [hpc, hahead, hline]
            exact .endOfFile hnone hclosed
          · rename_i hline
            unfold examine
            split
            · rename_i hsize
              exact .badLastLine hpc hahead hline hnone hclosed hsize
            · refine ServerMove.quiet hconnfd hserving rfl rfl (fun c => ?_)
              rw [hpc, hahead]
              exact .lastLine hnone hclosed hline
        · cases h
      · split at h
        · rename_i hbytes
          cases h
          have hmove : ServerMove args loop s i
              (((s.setWire connfd { s.wire connfd with
                toServer := (s.wire connfd).toServer.drop bytes }).setAhead i
                  ((s.wire connfd).toServer.take bytes)).goServer i (.readline connfd line)) := by
            refine .talk hconnfd hserving rfl rfl (fun c => ?_)
            rw [hpc, hahead]
            exact .fill hbytes.1 hbytes.2.2
          rw [State.goServer, ← hpc] at hmove
          simp only [State.setAhead, State.setWire, Function.update_eq_self] at hmove
          exact hmove
        · cases h

theorem serverMove_of_serverStep {i : Fin n} {bytes : Nat}
    (h : serverStep loop kernel s i bytes = some t) : ServerMove args loop s i t := by
  cases hpc : s.server i with
  | select =>
      simp only [serverStep, hpc] at h
      split at h
      · cases h
      · rename_i hpending
        cases h
        exact .select hpc hpending
  | lock =>
      simp only [serverStep, hpc] at h
      split at h
      · rename_i hfree
        cases h
        exact .lock hpc hfree
      · cases h
  | accept =>
      simp only [serverStep, hpc] at h
      split at h
      · cases h
      · rename_i connfd rest hpending
        cases h
        exact .accept hpc hpending
  | unlock connfd =>
      simp only [serverStep, hpc] at h
      cases h
      exact .unlock hpc
  | count connfd =>
      simp only [serverStep, hpc] at h
      cases h
      exact .count hpc
  | readline connfd line => exact serverMove_of_readline hpc h
  | writen connfd nleft =>
      have hconnfd : (s.server i).connfd = some connfd := by rw [hpc]; rfl
      have hserving : (s.server i).serving = true := by rw [hpc]; rfl
      simp only [serverStep, hpc] at h
      split at h
      · rename_i hnleft
        subst hnleft
        cases h
        refine ServerMove.quiet hconnfd hserving rfl rfl (fun c => ?_)
        rw [hpc]
        exact .replied
      · rename_i hnleft
        split at h
        · rename_i hclosed
          cases h
          exact .brokenPipe hpc (Nat.pos_of_ne_zero hnleft) hclosed
        · split at h
          · rename_i hbytes
            cases h
            have hmove : ServerMove args loop s i
                (((s.setWire connfd { s.wire connfd with
                  toClient := (s.wire connfd).toClient + bytes }).setAhead i
                    (s.ahead i)).goServer i (.writen connfd (nleft - bytes))) := by
              refine .talk hconnfd hserving rfl rfl (fun c => ?_)
              rw [hpc]
              exact .reply hbytes.1 hbytes.2.1
            simp only [State.setAhead, State.setWire, Function.update_eq_self] at hmove
            exact hmove
          · cases h
  | close connfd =>
      simp only [serverStep, hpc] at h
      cases h
      exact .close hpc
  | quit _ =>
      simp only [serverStep, hpc] at h
      cases h
  | brokenPipe =>
      simp only [serverStep, hpc] at h
      cases h

theorem serverMove_of_step {i : Fin n} {bytes : Nat}
    (h : (exchange m n args loop kernel).step s (.server i bytes) = some t) :
    ServerMove args loop s i t := by
  simp only [exchange] at h
  split at h
  · cases h
  · exact serverMove_of_serverStep h

theorem moves_of_step {a : Action m n}
    (h : (exchange m n args loop kernel).step s a = some t) :
    (exists i, ClientMove args kernel s i t) ∨ exists i, ServerMove args loop s i t := by
  cases a with
  | client i bytes => exact Or.inl ⟨i, clientMove_of_step h⟩
  | reset i => exact Or.inl ⟨i, clientMove_of_reset h⟩
  | server i bytes => exact Or.inr ⟨i, serverMove_of_step h⟩

end Exchange
end PracticeHand
