import YoloServer.Lib.Linearization
import YoloServer.Server.ShardedStore

/-!
# Concurrent clients of the servers

The workers of all servers handle the messages of many connections at the same time.  A handler
parses the message and asks the router, which does not change after start-up.  What it shares with
the other handlers is the storage, and it makes one access to it: a `put` for `STORE` or a `get` for
`GET`, at the server that keeps the key (`serveAt_one_access`).  RocksDB makes each of these calls
atomic.

`concurrent_clients_linearizable`: however the requests overlap, the clients get the replies of a
single server that handles one message after the other.
-/

namespace YoloServer
namespace Server

open Cluster Function Json Lib

section Access

variable {D : Type} [Double D] {F : Type} [Single F D] {base : Env D} {d : Deployment} {i : String}

/-- A request is handled with the storage of one server, and changes no other storage. -/
theorem serveAt_one_access (hi : i ∈ d.ids) (a : Arrival) :
    ∃ j, ∀ stores, serveRequest F base d stores (i, a) =
      ((serveAlone F base (d.server j) (stores j) a).1,
        update stores j (serveAlone F base (d.server j) (stores j) a).2) := by
  cases hkey : routingKey F (base.during a) a.msg with
  | none => exact ⟨i, fun stores => serveAt_of_nextHop_none (nextHop_of_keyless hkey)⟩
  | some key =>
      obtain ⟨path, hchain, hlength, j, hj, hlast, hkeeps⟩ := exists_keeper (base.during a) hi key
      exact ⟨j, fun stores => serveAt_of_isChain hi hkey hchain hlast hkeeps hlength⟩

end Access

/-- **Concurrent clients see one storage.**  The clients of the servers send their messages to any
of them and at any time, and the handlers run in any interleaving.  If every server that has others
above it for a key has found one of them at start-up, there is an order of the requests, in
which a request that was answered before another one was received comes first, such that
the replies are those of a single server that handles the requests one by one in this order; and
each request makes its access at one server. -/
theorem concurrent_clients_linearizable {D F κ : Type} [Double D] [Single F D] [DecidableEq κ]
    (base : Env D) (d : Deployment) (hknows : ∀ key, d.KnowsAbove (keyHash base key) "")
    (one : Server) (hone : ∀ key, Keeps base one key)
    (es : List (Clients.Event κ (String × Arrival)))
    (s : Clients κ (String → Store) (String × Arrival) (List (List UInt8)))
    (hrun : run (Clients.step (serveRequest F base d)) (Clients.init fun _ => Store.empty) es =
      some s)
    (hclients : ∀ k request, .receive k request ∈ es →
      request.1 ∈ d.ids ∧ FromClient request.2.msg) :
    Linearizes (fun store request => serveAlone F base one store request.2) Store.empty
        s.history s.order ∧
      ∀ k request, .receive k request ∈ es → ∃ j, ∀ stores, serveRequest F base d stores request =
        ((serveAlone F base (d.server j) (stores j) request.2).1,
          update stores j (serveAlone F base (d.server j) (stores j) request.2).2) := by
  constructor
  · have hsharded := Clients.linearizes_of_run hrun
    refine hsharded.of_related (R := Shards base d) ?_ ?_ (Clients.allowed_of_run hclients hrun)
    · exact fun _ _ _ hshards hrequest => serveRequest_shards hknows hone hshards hrequest
    · exact fun _ _ _ => ⟨fun _ => rfl, fun _ => rfl⟩
  · intro k request hreceive
    exact serveAt_one_access (hclients k request hreceive).1 request.2

/-- A `GET` through one server overlaps with a `STORE` of the same image through the other one, and
is answered first. -/
def overlapping : List (Clients.Event Bool (String × Arrival)) :=
  [.receive true ("node2", arrival (getMessage "img1") (7, 8)),
    .receive false ("node1", arrival looseMessage (0, 0)),
    .access false, .access true, .answer true, .answer false]

theorem overlapping_get_finds_image :
    ∃ s, run (Clients.step (serveRequest Halves parsingEnv probedPair))
        (Clients.init fun _ => Store.empty) overlapping = some s ∧
      s.order.map (fun x => x.2.2) = [[utf8 "STORE OK"], [encode Tenths looseFrame]] := by
  obtain ⟨s, hrun, hinputs⟩ : ∃ s, run (Clients.step (serveRequest Halves parsingEnv probedPair))
      (Clients.init fun _ => Store.empty) overlapping = some s ∧
      s.order.map (fun x => x.2.1) =
        [("node1", arrival looseMessage (0, 0)), ("node2", arrival (getMessage "img1") (7, 8))] :=
    ⟨_, rfl, rfl⟩
  have hclients : ∀ k request, .receive k request ∈ overlapping →
      request.1 ∈ probedPair.ids ∧ FromClient request.2.msg := by
    intro k request hmem
    simp only [overlapping, List.mem_cons, Clients.Event.receive.injEq, reduceCtorEq,
      List.not_mem_nil, or_false] at hmem
    unfold FromClient
    rcases hmem with ⟨-, rfl⟩ | ⟨-, rfl⟩
    · decide +kernel
    · decide +kernel
  have hlinear := (concurrent_clients_linearizable parsingEnv probedPair
    (fun _ => knowsAbove_probedPair _ _) loneServer keepsAll_parsingEnv.picks overlapping s hrun
    hclients).1.sequential
  refine ⟨s, hrun, ?_⟩
  rw [← hlinear, hinputs]
  decide +kernel

end Server
end YoloServer
