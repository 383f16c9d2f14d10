import Attest.Manifest.Basic
import Attest.Proofs.Json.Follows
import Attest.Proofs.Json.Rewriting

namespace Attest

open Json Json.Record

theorem Metadata.orderly : Orderly fields := by
  refine ⟨by decide, ?_⟩
  simp only [fields, List.pairwise_cons, List.forall_mem_cons, List.not_mem_nil, false_imp_iff,
    implies_true, List.Pairwise.nil, and_true]
  and_intros <;> exact Field.commutes (by intros; rfl)

theorem Node.orderly {any : Decoder Json} : Orderly (fields any) := by
  refine ⟨by simp [Field.spellings, fields, Field.mandatory, Field.optional], ?_⟩
  simp only [fields, List.pairwise_cons, List.forall_mem_cons, List.not_mem_nil, false_imp_iff,
    implies_true, List.Pairwise.nil, and_true]
  and_intros <;> exact Field.commutes (by intros; rfl)

theorem Edge.orderly : Orderly fields := by
  refine ⟨by decide, ?_⟩
  simp only [fields, List.pairwise_cons, List.forall_mem_cons, List.not_mem_nil, false_imp_iff,
    implies_true, List.Pairwise.nil, and_true]
  exact Field.commutes (by intros; rfl)

theorem Graph.orderly {any : Decoder Json} : Orderly (fields any) := by
  refine ⟨by simp [Field.spellings, fields, Field.optional], ?_⟩
  simp only [fields, List.pairwise_cons, List.forall_mem_cons, List.not_mem_nil, false_imp_iff,
    implies_true, List.Pairwise.nil, and_true]
  exact Field.commutes (by intros; rfl)

theorem Manifest.orderly {any : Decoder Json} : Orderly (fields any) := by
  refine ⟨by simp [Field.spellings, fields, Field.optional], ?_⟩
  simp only [fields, List.pairwise_cons, List.forall_mem_cons, List.not_mem_nil, false_imp_iff,
    implies_true, List.Pairwise.nil, and_true]
  and_intros <;> exact Field.commutes (by intros; rfl)

def Node.rewrite (f : Json → Json) (n : Node) : Node :=
  { n with inputs := n.inputs.map fun inputs => ⟨Entries.mapValues f inputs.entries⟩ }

def Graph.rewrite (f : Json → Json) (g : Graph) : Graph := { g with nodes := g.nodes.map (Node.rewrite f) }

def Manifest.rewrite (f : Json → Json) (m : Manifest) : Manifest := { m with graph := m.graph.rewrite f }

theorem Json.Decoder.string_null (depth : Nat) (s : String) : Decoder.string depth .null ≠ .ok s := nofun

section

variable {f : Json → Json} (rewriting : Rewriting f)

include rewriting

theorem Json.Decoder.respects_optionalString :
    Decoder.Respects f id (Decoder.optional Decoder.string) := by
  have respects := Decoder.respects_optional rewriting (Decoder.respects_string rewriting)
    Decoder.string_null
  rwa [Option.map_id] at respects

theorem Metadata.respects_decoder : Decoder.Respects f (fun m => m) decoder := by
  have text := Decoder.respects_string rewriting
  refine respects_decode rewriting orderly ?_ rfl
  simp only [fields, List.forall_mem_cons, List.not_mem_nil, false_imp_iff, implies_true, and_true]
  and_intros <;> exact Field.respects text (by intros; rfl)

theorem Edge.respects_decoder : Decoder.Respects f id decoder := by
  have text := Decoder.respects_string rewriting
  refine respects_decode rewriting orderly ?_ rfl
  simp only [fields, List.forall_mem_cons, List.not_mem_nil, false_imp_iff, implies_true, and_true]
  and_intros <;> exact Field.respects text (by intros; rfl)

theorem Node.respects_decoder : Decoder.Respects f (Node.rewrite f) (decoder .content) := by
  have text := Decoder.respects_string rewriting
  have optionalText := Decoder.respects_optionalString rewriting
  have inputs := Decoder.respects_optional rewriting (Decoder.respects_entries rewriting)
    fun depth a => by cases depth <;> exact nofun
  refine respects_decode rewriting orderly ?_ rfl
  simp only [fields, List.forall_mem_cons, List.not_mem_nil, false_imp_iff, implies_true, and_true]
  refine ⟨?_, ?_, ?_, ?_, ?_⟩
  · exact Field.respects text (by intros; rfl)
  · exact Field.respects text (by intros; rfl)
  · exact Field.respects optionalText (by intros; rfl)
  · exact Field.respects optionalText (by intros; rfl)
  · exact Field.respects inputs (by rintro (_ | _) _ <;> rfl)

theorem Graph.respects_decoder : Decoder.Respects f (Graph.rewrite f) (decoder .content) := by
  have nodes := Decoder.respects_list rewriting (Node.respects_decoder rewriting)
  have edges := Decoder.respects_list rewriting (Edge.respects_decoder rewriting)
  rw [List.map_id_fun] at edges
  refine respects_decode rewriting orderly ?_ rfl
  simp only [fields, List.forall_mem_cons, List.not_mem_nil, false_imp_iff, implies_true, and_true]
  exact ⟨Field.respects nodes (by intros; rfl),
    Field.respects edges (by intros; rfl)⟩

theorem Manifest.respects_decoder : Decoder.Respects f (Manifest.rewrite f) (decoder .content) := by
  have optionalText := Decoder.respects_optionalString rewriting
  have texts := Decoder.respects_list rewriting (Decoder.respects_string rewriting)
  rw [List.map_id_fun] at texts
  refine respects_decode rewriting orderly ?_ rfl
  simp only [fields, List.forall_mem_cons, List.not_mem_nil, false_imp_iff, implies_true, and_true]
  refine ⟨?_, ?_, ?_, ?_, ?_, ?_, ?_⟩
  · exact Field.respects (Metadata.respects_decoder rewriting) (by intros; rfl)
  · exact Field.respects optionalText (by intros; rfl)
  · exact Field.respects texts (by intros; rfl)
  · exact Field.respects texts (by intros; rfl)
  · exact Field.respects (Graph.respects_decoder rewriting) (by intros; rfl)
  · exact Field.respects (Decoder.respects_bool rewriting) (by intros; rfl)
  · exact Field.respects optionalText (by intros; rfl)

end

section

variable {f : Json → Json} {p : Outline → Prop} (hereditary : Hereditary p) {any any' : Decoder Json}
  (follows : any.Follows p f any')

include hereditary follows

theorem Node.follows_decoder : Decoder.Follows p (Node.rewrite f) (decoder any) (decoder any') := by
  have text := Decoder.follows_rfl (p := p) Decoder.string
  have optionalText := Decoder.follows_rfl (p := p) (Decoder.optional Decoder.string)
  have inputs := (follows.entries hereditary).optional
  refine follows_decode hereditary ?_ rfl
  simp only [fields, List.forall₂_cons, List.Forall₂.nil, and_true]
  refine ⟨?_, ?_, ?_, ?_, ?_⟩
  · exact Field.follows text (by intros; rfl)
  · exact Field.follows text (by intros; rfl)
  · exact Field.follows optionalText (by intros; rfl)
  · exact Field.follows optionalText (by intros; rfl)
  · exact Field.follows inputs (by rintro (_ | _) _ <;> rfl)

theorem Graph.follows_decoder : Decoder.Follows p (Graph.rewrite f) (decoder any) (decoder any') := by
  have nodes := (Node.follows_decoder hereditary follows).list hereditary
  have edges := Decoder.follows_rfl (p := p) (Decoder.list Edge.decoder)
  refine follows_decode hereditary ?_ rfl
  simp only [fields, List.forall₂_cons, List.Forall₂.nil, and_true]
  exact ⟨Field.follows nodes (by intros; rfl), Field.follows edges (by intros; rfl)⟩

theorem Manifest.follows_decoder : Decoder.Follows p (Manifest.rewrite f) (decoder any) (decoder any') := by
  have graph := Graph.follows_decoder hereditary follows
  refine follows_decode hereditary ?_ rfl
  simp only [fields, List.forall₂_cons, List.Forall₂.nil, and_true]
  refine ⟨?_, ?_, ?_, ?_, Field.follows graph (by intros; rfl), ?_, ?_⟩ <;>
    exact Field.follows (Decoder.follows_rfl _) (by intros; rfl)

end

def Node.Holds (p : List (String × Json) → Prop) (n : Node) : Prop :=
  ∀ inputs, n.inputs = some inputs → p inputs.entries

theorem Node.rewrite_eq_self {f : Json → Json} {n : Node}
    (same : n.Holds fun entries => Entries.mapValues f entries = entries) : n.rewrite f = n := by
  obtain ⟨id, kind, tool, action, _ | inputs⟩ := n
  · rfl
  · rw [rewrite, Option.map_some, same inputs rfl]

theorem Manifest.rewrite_eq_self {f : Json → Json} {m : Manifest}
    (same : ∀ n ∈ m.graph.nodes, n.Holds fun entries => Entries.mapValues f entries = entries) :
    m.rewrite f = m := by
  have nodes : m.graph.nodes.map (Node.rewrite f) = m.graph.nodes :=
    (List.map_congr_left fun n listed => Node.rewrite_eq_self (same n listed)).trans (List.map_id _)
  rw [rewrite, Graph.rewrite, nodes]

theorem Manifest.rewrite_id (m : Manifest) : m.rewrite id = m :=
  rewrite_eq_self fun _ _ _ _ => List.map_id _

section

variable {depth : Nat} {o : Outline} {m : Manifest}

theorem Manifest.decoder_eq_ok_iff (plain : o.isPlain = true) :
    decoder .value depth o = .ok m ↔ decoder .content depth o = .ok m := by
  constructor
  · intro read
    obtain ⟨n, found, same⟩ := follows_decoder hereditary_isPlain Decoder.follows_value_content plain read
    rwa [← same, rewrite_id]
  · intro read
    obtain ⟨n, found, same⟩ := follows_decoder hereditary_isPlain Decoder.follows_content_value plain read
    rwa [← same, rewrite_id]

theorem Manifest.exists_content_of_decoder (read : decoder .value depth o = .ok m) :
    ∃ n, decoder .content depth o = .ok n ∧ n.rewrite collapsed = m :=
  follows_decoder hereditary_true Decoder.follows_collapsed trivial read

end

end Attest
