import PthreadBenchmark.LonghornRpc.Model

/-! # The RPC client with a `send_msg` that can fail

`send_msg` is a placeholder that returns 0. Here it returns anything, and threads may also
wake up without a signal. -/

namespace PthreadBenchmark.LonghornRpc.Failing

variable {n : ℕ} {τ : Type} [Uthash n τ]

/-- `send i` is what `send_msg` returns to the call `i`. -/
def code (env : Env n) (send : Fin n → ℤ) (s : Shared n τ) : Point n → Step n τ
  | .call i .send => deref s i fun _ =>
    .run s (.call i (if send i < 0 then .unlockFailed (send i) else .wait (send i)))
  | p => LonghornRpc.code env s p

/-- The program without failures is one of these. -/
theorem code_zero (env : Env n) (s : Shared n τ) (p : Point n) :
    code env (fun _ => 0) s p = LonghornRpc.code env s p := by
  cases p with
  | call i pc => cases pc <;> rfl
  | response pc => rfl
  | fault => rfl

def initial (env : Env n) : Shared n τ where
  seq := 0
  msgTable := Uthash.empty
  reqs _ := none
  bufs := env.bufs
  received := 0
  handled := 0
  issued := []
  entered _ := none
  completions := []

/-- All calls on a new connection. -/
def program (env : Env n) (send : Fin n → ℤ) :
    System (Config (Tid n) (Shared n τ) (Point n) (Mutex n) (Fin n)) (Action (Tid n)) :=
  Pthread.program (code env send) (initial env) start

end PthreadBenchmark.LonghornRpc.Failing
