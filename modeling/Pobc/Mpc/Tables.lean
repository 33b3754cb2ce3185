import Mathlib.Data.Nat.Notation

/-!
# Tables of `MPC/code/aes_gf_long.py`

The constants of the embedded AES, row by row as the source lists them.
-/

namespace Pobc.Mpc

def rconRaw : List ℕ :=
   [0x8d, 0x01, 0x02, 0x04, 0x08, 0x10, 0x20, 0x40, 0x80, 0x1b, 0x36, 0x6c, 0xd8, 0xab, 0x4d, 0x9a,
    0x2f, 0x5e, 0xbc, 0x63, 0xc6, 0x97, 0x35, 0x6a, 0xd4, 0xb3, 0x7d, 0xfa, 0xef, 0xc5, 0x91, 0x39,
    0x72, 0xe4, 0xd3, 0xbd, 0x61, 0xc2, 0x9f, 0x25, 0x4a, 0x94, 0x33, 0x66, 0xcc, 0x83, 0x1d, 0x3a,
    0x74, 0xe8, 0xcb, 0x8d, 0x01, 0x02, 0x04, 0x08, 0x10, 0x20, 0x40, 0x80, 0x1b, 0x36, 0x6c, 0xd8,
    0xab, 0x4d, 0x9a, 0x2f, 0x5e, 0xbc, 0x63, 0xc6, 0x97, 0x35, 0x6a, 0xd4, 0xb3, 0x7d, 0xfa, 0xef,
    0xc5, 0x91, 0x39, 0x72, 0xe4, 0xd3, 0xbd, 0x61, 0xc2, 0x9f, 0x25, 0x4a, 0x94, 0x33, 0x66, 0xcc,
    0x83, 0x1d, 0x3a, 0x74, 0xe8, 0xcb, 0x8d, 0x01, 0x02, 0x04, 0x08, 0x10, 0x20, 0x40, 0x80, 0x1b,
    0x36, 0x6c, 0xd8, 0xab, 0x4d, 0x9a, 0x2f, 0x5e, 0xbc, 0x63, 0xc6, 0x97, 0x35, 0x6a, 0xd4, 0xb3,
    0x7d, 0xfa, 0xef, 0xc5, 0x91, 0x39, 0x72, 0xe4, 0xd3, 0xbd, 0x61, 0xc2, 0x9f, 0x25, 0x4a, 0x94,
    0x33, 0x66, 0xcc, 0x83, 0x1d, 0x3a, 0x74, 0xe8, 0xcb, 0x8d, 0x01, 0x02, 0x04, 0x08, 0x10, 0x20,
    0x40, 0x80, 0x1b, 0x36, 0x6c, 0xd8, 0xab, 0x4d, 0x9a, 0x2f, 0x5e, 0xbc, 0x63, 0xc6, 0x97, 0x35,
    0x6a, 0xd4, 0xb3, 0x7d, 0xfa, 0xef, 0xc5, 0x91, 0x39, 0x72, 0xe4, 0xd3, 0xbd, 0x61, 0xc2, 0x9f,
    0x25, 0x4a, 0x94, 0x33, 0x66, 0xcc, 0x83, 0x1d, 0x3a, 0x74, 0xe8, 0xcb, 0x8d, 0x01, 0x02, 0x04,
    0x08, 0x10, 0x20, 0x40, 0x80, 0x1b, 0x36, 0x6c, 0xd8, 0xab, 0x4d, 0x9a, 0x2f, 0x5e, 0xbc, 0x63,
    0xc6, 0x97, 0x35, 0x6a, 0xd4, 0xb3, 0x7d, 0xfa, 0xef, 0xc5, 0x91, 0x39, 0x72, 0xe4, 0xd3, 0xbd,
    0x61, 0xc2, 0x9f, 0x25, 0x4a, 0x94, 0x33, 0x66, 0xcc, 0x83, 0x1d, 0x3a, 0x74, 0xe8, 0xcb]

def forwardEmbeddingMatrix : List (List ℕ) :=
  [[1, 1, 1, 0, 1, 0, 1, 0],
   [0, 0, 0, 0, 1, 0, 0, 1],
   [0, 0, 1, 1, 1, 0, 1, 1],
   [0, 1, 1, 1, 1, 1, 1, 1],
   [0, 0, 0, 0, 0, 1, 0, 1],
   [0, 0, 1, 1, 1, 0, 0, 1],
   [0, 1, 1, 0, 0, 0, 1, 1],
   [0, 0, 1, 1, 0, 0, 0, 0],
   [0, 0, 0, 1, 1, 1, 1, 0],
   [0, 0, 0, 1, 0, 0, 0, 0],
   [0, 0, 0, 0, 0, 0, 1, 0],
   [0, 1, 0, 0, 0, 0, 1, 1],
   [0, 1, 1, 1, 0, 0, 0, 0],
   [0, 0, 0, 1, 0, 0, 1, 1],
   [0, 0, 0, 1, 1, 0, 0, 0],
   [0, 1, 0, 1, 0, 0, 0, 1],
   [0, 0, 1, 0, 0, 0, 1, 1],
   [0, 1, 1, 0, 1, 0, 1, 1],
   [0, 1, 1, 1, 1, 0, 0, 1],
   [0, 1, 0, 0, 1, 0, 0, 1],
   [0, 0, 1, 1, 1, 1, 0, 1],
   [0, 1, 1, 1, 0, 1, 1, 0],
   [0, 0, 1, 1, 1, 1, 1, 0],
   [0, 0, 0, 0, 1, 1, 0, 1],
   [0, 0, 1, 1, 0, 0, 1, 0],
   [0, 0, 1, 0, 1, 0, 1, 0],
   [0, 1, 1, 0, 1, 1, 0, 0],
   [0, 1, 1, 1, 1, 1, 0, 0],
   [0, 1, 1, 1, 0, 1, 1, 1],
   [0, 1, 0, 1, 0, 1, 1, 1],
   [0, 0, 1, 1, 1, 0, 1, 1],
   [0, 0, 0, 1, 0, 1, 1, 1],
   [0, 0, 0, 1, 1, 0, 1, 1],
   [0, 0, 1, 0, 1, 1, 1, 0],
   [0, 0, 0, 0, 1, 0, 1, 0],
   [0, 1, 1, 0, 1, 1, 0, 0],
   [0, 0, 0, 1, 0, 1, 1, 1],
   [0, 0, 0, 1, 1, 1, 0, 1],
   [0, 1, 1, 0, 1, 0, 1, 0],
   [0, 0, 0, 1, 0, 1, 0, 1],
   [0, 0, 0, 1, 1, 1, 1, 1],
   [0, 0, 1, 0, 0, 1, 1, 0],
   [0, 0, 0, 1, 0, 1, 1, 1],
   [0, 0, 1, 1, 0, 1, 1, 0],
   [0, 1, 1, 0, 1, 0, 1, 0],
   [0, 1, 0, 1, 1, 0, 0, 1],
   [0, 0, 1, 0, 1, 0, 0, 0],
   [0, 0, 1, 0, 0, 0, 0, 0],
   [0, 1, 1, 1, 1, 1, 1, 0],
   [0, 1, 1, 0, 1, 0, 0, 1],
   [0, 0, 0, 0, 1, 0, 1, 1],
   [0, 0, 0, 0, 1, 0, 1, 0],
   [0, 0, 1, 0, 0, 1, 0, 0],
   [0, 0, 1, 1, 1, 1, 1, 1],
   [0, 0, 1, 0, 0, 0, 1, 0],
   [0, 1, 0, 1, 0, 1, 1, 0],
   [0, 1, 1, 1, 0, 0, 1, 1],
   [0, 1, 0, 0, 1, 0, 0, 0],
   [0, 0, 1, 0, 1, 1, 1, 0],
   [0, 1, 0, 0, 1, 1, 0, 0],
   [0, 0, 1, 0, 1, 1, 1, 1],
   [0, 1, 1, 0, 0, 0, 0, 0],
   [0, 1, 1, 1, 1, 1, 0, 1],
   [0, 0, 0, 0, 0, 0, 1, 0],
   [0, 0, 0, 1, 1, 0, 1, 1],
   [0, 1, 0, 1, 0, 1, 1, 0],
   [0, 1, 1, 1, 1, 1, 1, 0],
   [0, 1, 0, 1, 0, 0, 0, 0],
   [0, 1, 0, 1, 1, 0, 0, 1],
   [0, 1, 1, 0, 0, 0, 1, 0],
   [0, 1, 0, 0, 1, 0, 0, 0],
   [0, 1, 0, 1, 1, 1, 1, 0],
   [0, 0, 0, 1, 0, 0, 1, 1],
   [0, 1, 1, 0, 1, 0, 0, 1],
   [0, 0, 0, 0, 1, 1, 0, 0],
   [0, 0, 1, 1, 1, 1, 1, 1],
   [0, 0, 0, 1, 0, 0, 0, 0],
   [0, 1, 1, 0, 0, 0, 1, 1],
   [0, 0, 1, 0, 1, 0, 1, 0],
   [0, 0, 0, 0, 1, 1, 1, 0],
   [0, 0, 0, 1, 1, 1, 0, 0],
   [0, 1, 0, 0, 1, 0, 1, 0],
   [0, 0, 1, 0, 1, 1, 0, 1],
   [0, 0, 0, 1, 0, 1, 1, 0],
   [0, 0, 0, 1, 1, 1, 0, 0],
   [0, 1, 1, 1, 0, 1, 0, 0],
   [0, 0, 1, 1, 1, 0, 0, 0],
   [0, 1, 0, 1, 1, 0, 0, 0],
   [0, 0, 0, 1, 0, 0, 0, 1],
   [0, 0, 0, 0, 0, 1, 0, 1],
   [0, 0, 1, 0, 1, 0, 1, 1],
   [0, 0, 0, 0, 0, 1, 1, 1],
   [0, 0, 1, 0, 0, 1, 1, 1],
   [0, 0, 0, 0, 1, 1, 1, 1],
   [0, 1, 0, 0, 1, 0, 0, 0],
   [0, 0, 1, 1, 0, 0, 1, 1],
   [0, 0, 0, 1, 1, 0, 0, 1],
   [0, 1, 0, 0, 1, 1, 0, 0],
   [0, 1, 1, 0, 1, 0, 0, 0],
   [0, 0, 1, 0, 0, 1, 1, 0],
   [0, 0, 1, 0, 1, 0, 0, 1],
   [0, 0, 0, 1, 1, 0, 1, 1],
   [0, 1, 1, 1, 1, 1, 1, 0],
   [0, 0, 0, 1, 0, 0, 1, 0],
   [0, 0, 1, 0, 1, 1, 0, 1],
   [0, 1, 1, 0, 0, 0, 1, 1],
   [0, 1, 0, 1, 0, 1, 0, 0],
   [0, 0, 0, 0, 0, 0, 0, 0],
   [0, 1, 1, 0, 0, 1, 1, 0],
   [0, 1, 0, 0, 0, 1, 0, 1],
   [0, 0, 1, 1, 1, 0, 0, 0],
   [0, 0, 1, 1, 1, 0, 1, 0],
   [0, 1, 1, 0, 0, 0, 0, 1],
   [0, 1, 1, 0, 1, 1, 1, 0],
   [0, 0, 0, 0, 1, 0, 1, 1],
   [0, 1, 1, 1, 1, 0, 1, 0],
   [0, 0, 1, 1, 0, 1, 1, 0],
   [0, 0, 0, 0, 1, 0, 1, 1],
   [0, 1, 1, 1, 0, 1, 0, 0],
   [0, 1, 0, 0, 0, 0, 0, 0],
   [0, 1, 1, 1, 1, 1, 1, 1],
   [0, 0, 0, 0, 1, 0, 0, 1],
   [0, 1, 1, 1, 1, 1, 1, 0],
   [0, 1, 1, 1, 0, 1, 0, 0],
   [0, 0, 1, 0, 0, 0, 1, 1],
   [0, 0, 1, 1, 1, 0, 0, 0],
   [0, 0, 0, 1, 0, 1, 1, 0],
   [0, 0, 0, 0, 1, 0, 0, 1]]

def embeddedPowers : List (List ℕ) :=
  [[0x1, 0x3d5bd35c94646a247573da4a5f7710ed,
    0xa72ec17764d7ced55e2f716f4ede412f, 0x553e92e8bc0ae9a795ed1f57f3632d4d,
    0xc7bd33d0a58cf5b4740d6c968b842acb, 0x486fb01f93aa169afd8ee716e990cf14,
    0xbee4e4dc44629cf627b537f28935c282, 0x549810e11a88dea5252b49277b1b82b4],
   [0x1, 0xa72ec17764d7ced55e2f716f4ede412f,
    0xc7bd33d0a58cf5b4740d6c968b842acb, 0xbee4e4dc44629cf627b537f28935c282,
    0xafd872648de276379493a98b2790176a, 0x49b075c0f15ad1e11f9bedcdd1861f4,
    0x7492e14aa14c4bbc383b6b2c3e9f7001, 0xfb406285976aa892b1b8e0ac5c8b95df],
   [0x1, 0xc7bd33d0a58cf5b4740d6c968b842acb,
    0xafd872648de276379493a98b2790176a, 0x7492e14aa14c4bbc383b6b2c3e9f7001,
    0xb61257cfad572414ed09ef16e07b94c6, 0x950311a4fb78fe07a7a8e94e136f9bc,
    0xe6114072b8ca57afd9db18ed46787787, 0x4d52354a3a3d8c865cb10fbabcf00118],
   [0x1, 0xafd872648de276379493a98b2790176a,
    0xb61257cfad572414ed09ef16e07b94c6, 0xe6114072b8ca57afd9db18ed46787787,
    0x53d8555a9979a1ca13fe8ac5560ce0d, 0x340be246dbd3e5c40f0954debe41e950,
    0xf72dd6ca714abd6e6afd8694e8dda26f, 0x486fb01f93aa169afd8ee716e990cf14],
   [0x1, 0xb61257cfad572414ed09ef16e07b94c6,
    0x53d8555a9979a1ca13fe8ac5560ce0d, 0xf72dd6ca714abd6e6afd8694e8dda26f,
    0x4cf4b7439cbfbb84ec7759ca3488aee1, 0x93252331bf042b11512625b1f09fa87e,
    0x35ad604f7d51d2c6bfcf02ae363946a8, 0x49b075c0f15ad1e11f9bedcdd1861f4],
   [0x1, 0x53d8555a9979a1ca13fe8ac5560ce0d,
    0x4cf4b7439cbfbb84ec7759ca3488aee1, 0x35ad604f7d51d2c6bfcf02ae363946a8,
    0xdcb364640a222fe6b8330483c2e9849, 0x549810e11a88dea5252b49277b1b82b4,
    0xd681a5686c0c1f75c72bf2ef2521ff22, 0x950311a4fb78fe07a7a8e94e136f9bc],
   [0x1, 0x4cf4b7439cbfbb84ec7759ca3488aee1,
    0xdcb364640a222fe6b8330483c2e9849, 0xd681a5686c0c1f75c72bf2ef2521ff22,
    0x3d5bd35c94646a247573da4a5f7710ed, 0xfb406285976aa892b1b8e0ac5c8b95df,
    0x6d58c4e181f9199f41a12db1f974f3ac, 0x340be246dbd3e5c40f0954debe41e950]]

def forwardMatrix : List (List ℕ) :=
  [[1, 0, 0, 0, 1, 1, 1, 1],
   [1, 1, 0, 0, 0, 1, 1, 1],
   [1, 1, 1, 0, 0, 0, 1, 1],
   [1, 1, 1, 1, 0, 0, 0, 1],
   [1, 1, 1, 1, 1, 0, 0, 0],
   [0, 1, 1, 1, 1, 1, 0, 0],
   [0, 0, 1, 1, 1, 1, 1, 0],
   [0, 0, 0, 1, 1, 1, 1, 1]]

def matrixInv : List (List ℕ) :=
  [[0, 0, 1, 0, 0, 1, 0, 1],
   [1, 0, 0, 1, 0, 0, 1, 0],
   [0, 1, 0, 0, 1, 0, 0, 1],
   [1, 0, 1, 0, 0, 1, 0, 0],
   [0, 1, 0, 1, 0, 0, 1, 0],
   [0, 0, 1, 0, 1, 0, 0, 1],
   [1, 0, 0, 1, 0, 1, 0, 0],
   [0, 1, 0, 0, 1, 0, 1, 0]]

def forwardAdd : List ℕ := [1, 1, 0, 0, 0, 1, 1, 0]

def entry (m : List (List ℕ)) (i j : ℕ) : ℕ := (m.getD i []).getD j 0

end Pobc.Mpc
